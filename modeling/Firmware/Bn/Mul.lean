import Firmware.Bn.Num

/-!
# tinysrp: products

`bn_mul.c` and `bn_sqr.c`: a product is written row by row into words that hold anything before; in
a square every mixed product is made once, and doubled.

* `mulNormal`, `sqrNormal`            the rows;
* `mulNormal_eq`, `sqrNormal_eq`      what is in the words in the end;
* `BigNum.mul`, `BigNum.sqr`.
-/

set_option linter.unusedVariables false

namespace Bn
open Nat (ofDigits)
open Limbs

section
variable (w : WordSize)

/-- a row of `bn_mul_add_words` and its carry, in the words `rp` -/
def addRow (rp a : List Nat) (x : Nat) : List Nat :=
  let s := mulAddWords w (rp.take a.length) a x
  s.1 ++ s.2 :: rp.drop (a.length + 1)

/-- the first row -/
def firstRow (rp a : List Nat) (x : Nat) : List Nat :=
  let s := mulWords w a x
  s.1 ++ s.2 :: rp.drop (a.length + 1)

/-- the loop of `bn_mul_normal`; `rp` are the words from the row on -/
def mulRows (a : List Nat) : List Nat → List Nat → List Nat
  | [], rp => rp
  | x :: b, rp =>
    let rp := addRow w rp a x
    rp.take 1 ++ mulRows a b (rp.drop 1)

/-- `bn_mul_normal`, where `a` is not the shorter one -/
def mulLong (r a b : List Nat) : List Nat :=
  match b with
  | [] => r
  | x :: b =>
    let rp := firstRow w r a x
    rp.take 1 ++ mulRows w a b (rp.drop 1)

/-- `r` are the words as they were -/
def mulNormal (r a b : List Nat) : List Nat :=
  if a.length < b.length then mulLong w r b a else mulLong w r a b

/-- the second loop of `bn_sqr_normal`: the next row starts two words further up -/
def sqrRows : List Nat → List Nat → List Nat
  | x :: y :: t, rp =>
    let rp := addRow w rp (y :: t) x
    rp.take 2 ++ sqrRows (y :: t) (rp.drop 2)
  | _, rp => rp

/-- the first half of `bn_sqr_normal`: two words that are zero, and the rows between them -/
def mixedRows (r a : List Nat) : List Nat :=
  let r := (r.set 0 0).set (2 * a.length - 1) 0
  match a with
  | x :: y :: t =>
    let rp := firstRow w (r.drop 1) (y :: t) x
    r.take 1 ++ (rp.take 2 ++ sqrRows w (y :: t) (rp.drop 2))
  | _ => r

def sqrNormal (r a : List Nat) : List Nat :=
  let r := mixedRows w r a
  let r := (addWords w r r).1
  (addWords w r (sqrWords w a)).1

end

/-! ## rows -/

variable {w : WordSize} {a b rp : List Nat} {x : Nat}

/-- a row that is `v`, and what is behind it -/
structure Row (w : WordSize) (rp rp' : List Nat) (len v : Nat) : Prop where
  below : Below w.base (rp'.take (len + 1))
  length : rp'.length = rp.length
  value : ofDigits w.base (rp'.take (len + 1)) = v
  rest : rp'.drop (len + 1) = rp.drop (len + 1)

theorem row_of_carried {s : List Nat × Nat} {len v : Nat} (h : Carried w s len v) (hl : len < rp.length) :
    Row w rp (s.1 ++ s.2 :: rp.drop (len + 1)) len v := by
  have hlen := h.length
  have ht : (s.1 ++ s.2 :: rp.drop (len + 1)).take (len + 1) = s.1 ++ [s.2] := by
    rw [show s.1 ++ s.2 :: rp.drop (len + 1) = (s.1 ++ [s.2]) ++ rp.drop (len + 1) by
      rw [List.append_assoc]; rfl]
    exact List.take_left' (by rw [List.length_append, hlen]; rfl)
  have hd : (s.1 ++ s.2 :: rp.drop (len + 1)).drop (len + 1) = rp.drop (len + 1) := by
    rw [show s.1 ++ s.2 :: rp.drop (len + 1) = (s.1 ++ [s.2]) ++ rp.drop (len + 1) by
      rw [List.append_assoc]; rfl]
    exact List.drop_left' (by rw [List.length_append, hlen]; rfl)
  refine ⟨?_, ?_, ?_, hd⟩
  · rw [ht]
    exact h.below.append (Below.nil.cons h.carry)
  · rw [List.length_append, List.length_cons, List.length_drop, hlen]
    omega
  · rw [ht, ofDigits_concat, hlen]
    exact h.value

theorem firstRow_row (rp : List Nat) (ha : Below w.base a) (hx : x < w.base) (hl : a.length < rp.length) :
    Row w rp (firstRow w rp a x) a.length (ofDigits w.base a * x) :=
  row_of_carried (mulWords_eq ha hx) hl

theorem addRow_row (ha : Below w.base a) (hr : Below w.base (rp.take a.length)) (hx : x < w.base)
    (hl : a.length < rp.length) : Row w rp (addRow w rp a x) a.length
      (ofDigits w.base a * x + ofDigits w.base (rp.take a.length)) :=
  row_of_carried (mulAddWords_eq ha hr (List.length_take_of_le (Nat.le_of_lt hl)).symm hx) hl

/-- the words that are done, and those of the next row -/
theorem Row.split {rp' : List Nat} {len v k : Nat} (h : Row w rp rp' len v) (hk : k ≤ len + 1)
    (hl : len < rp.length) :
    Below w.base (rp'.take k) ∧ (rp'.take k).length = k ∧ (rp'.drop k).length = rp.length - k ∧
    Below w.base ((rp'.drop k).take (len + 1 - k)) ∧
    ofDigits w.base (rp'.take k) + w.base ^ k * ofDigits w.base ((rp'.drop k).take (len + 1 - k)) = v := by
  have hb := h.below
  have hlen := h.length
  have ht : (rp'.take (len + 1)).take k = rp'.take k := by
    rw [List.take_take, Nat.min_eq_left hk]
  have hd : (rp'.take (len + 1)).drop k = (rp'.drop k).take (len + 1 - k) := List.drop_take
  have hlt : (rp'.take (len + 1)).length = len + 1 := List.length_take_of_le (by omega)
  refine ⟨?_, List.length_take_of_le (by omega), by rw [List.length_drop, hlen], ?_, ?_⟩
  · rw [← ht]
    exact hb.take k
  · rw [← hd]
    exact hb.drop k
  · rw [← h.value, ofDigits_take_drop w.base (rp'.take (len + 1)) (k := k) (by omega), ht, hd]

/-- the last word is behind the row -/
theorem row_last {rp' : List Nat} {len v k : Nat} (h : Row w rp rp' len v) (hl : len + 1 < rp.length)
    (hk : k < rp.length) (hz : rp.getLast? = some 0) : (rp'.drop k).getLast? = some 0 := by
  have hlr := h.length
  have e1 := List.getLast?_drop (l := rp) (i := len + 1)
  have e2 := List.getLast?_drop (l := rp') (i := len + 1)
  have e3 := List.getLast?_drop (l := rp') (i := k)
  rw [if_neg (by omega)] at e1 e2 e3
  rw [e3, ← e2, h.rest, e1, hz]

/-! ## the product -/

theorem mulRows_eq (ha : Below w.base a) (b : List Nat) : Below w.base b → ∀ rp : List Nat,
    rp.length = a.length + b.length → Below w.base (rp.take a.length) →
    Below w.base (mulRows w a b rp) ∧ (mulRows w a b rp).length = rp.length ∧
    ofDigits w.base (mulRows w a b rp) =
      ofDigits w.base (rp.take a.length) + ofDigits w.base a * ofDigits w.base b := by
  induction b with
  | nil =>
    intro _ rp hl hr
    have hl : rp.length = a.length := hl
    rw [List.take_of_length_le (by omega)] at hr ⊢
    exact ⟨hr, rfl, rfl⟩
  | cons x b ih =>
    intro hb rp hl hr
    rw [List.length_cons] at hl
    have hrow := addRow_row ha hr (hb x List.mem_cons_self) (show a.length < rp.length by omega)
    obtain ⟨h1, h2, h3, h4, h5⟩ := hrow.split (k := 1) (by omega) (by omega)
    rw [Nat.add_sub_cancel] at h4 h5
    obtain ⟨h6, h7, h8⟩ := ih hb.tail ((addRow w rp a x).drop 1) (by omega) h4
    unfold mulRows
    dsimp only
    refine ⟨h1.append h6, ?_, ?_⟩
    · rw [List.length_append, h2, h7, h3]
      omega
    · rw [Nat.ofDigits_append, h2, h8, Nat.mul_add, ← Nat.add_assoc, h5, Nat.ofDigits_cons]
      ring

theorem mulLong_eq (ha : Below w.base a) (hb : Below w.base b) (h0 : b ≠ []) {r : List Nat}
    (hr : r.length = a.length + b.length) : Below w.base (mulLong w r a b) ∧
    (mulLong w r a b).length = a.length + b.length ∧
    ofDigits w.base (mulLong w r a b) = ofDigits w.base a * ofDigits w.base b := by
  cases b with
  | nil => exact absurd rfl h0
  | cons x b =>
    rw [List.length_cons] at hr
    have hrow := firstRow_row r ha (hb x List.mem_cons_self) (by omega)
    obtain ⟨h1, h2, h3, h4, h5⟩ := hrow.split (k := 1) (by omega) (by omega)
    rw [Nat.add_sub_cancel] at h4 h5
    obtain ⟨h6, h7, h8⟩ := mulRows_eq ha b hb.tail ((firstRow w r a x).drop 1) (by omega) h4
    unfold mulLong
    dsimp only
    refine ⟨h1.append h6, ?_, ?_⟩
    · rw [List.length_append, h2, h7, h3, List.length_cons]
      omega
    · rw [Nat.ofDigits_append, h2, h8, Nat.mul_add, ← Nat.add_assoc, h5, Nat.ofDigits_cons]
      ring

/-- **The product**, whatever the words were before. -/
theorem mulNormal_eq (ha : Below w.base a) (hb : Below w.base b) (ha0 : a ≠ []) (hb0 : b ≠ []) {r : List Nat}
    (hr : r.length = a.length + b.length) : Below w.base (mulNormal w r a b) ∧
    (mulNormal w r a b).length = a.length + b.length ∧
    ofDigits w.base (mulNormal w r a b) = ofDigits w.base a * ofDigits w.base b := by
  unfold mulNormal
  split
  · rw [Nat.mul_comm, Nat.add_comm]
    exact mulLong_eq hb ha ha0 (by rw [hr, Nat.add_comm])
  · exact mulLong_eq ha hb hb0 hr

/-! ## the square -/

/-- the mixed products, less a factor of the base -/
def mixed (b : Nat) : List Nat → Nat
  | [] => 0
  | x :: t => x * ofDigits b t + b ^ 2 * mixed b t

theorem square_eq (ha : Below w.base a) :
    ofDigits w.base (sqrWords w a) + 2 * (w.base * mixed w.base a) = ofDigits w.base a * ofDigits w.base a := by
  induction a with
  | nil => rfl
  | cons x a ih =>
    have h1 := ih ha.tail
    obtain ⟨-, -, h2⟩ := sqr64_eq (ha x List.mem_cons_self)
    have hs : sqrWords w (x :: a) = (sqr64 w x).1 :: (sqr64 w x).2 :: sqrWords w a := rfl
    rw [hs, Nat.ofDigits_cons, Nat.ofDigits_cons, Nat.ofDigits_cons]
    unfold mixed
    calc (sqr64 w x).1 + w.base * ((sqr64 w x).2 + w.base * ofDigits w.base (sqrWords w a)) +
          2 * (w.base * (x * ofDigits w.base a + w.base ^ 2 * mixed w.base a))
        = (sqr64 w x).1 + w.base * (sqr64 w x).2 + 2 * w.base * x * ofDigits w.base a +
            w.base ^ 2 * (ofDigits w.base (sqrWords w a) + 2 * (w.base * mixed w.base a)) := by ring
      _ = (x + w.base * ofDigits w.base a) * (x + w.base * ofDigits w.base a) := by
        rw [h1, h2]
        ring

/-- the words of the rows, and the zero that was set above them -/
theorem sqrRows_eq (t : List Nat) : ∀ (x : Nat) (rp : List Nat), Below w.base (x :: t) →
    rp.length = 2 * t.length + 1 → Below w.base (rp.take t.length) → rp.getLast? = some 0 →
    Below w.base (sqrRows w (x :: t) rp) ∧ (sqrRows w (x :: t) rp).length = rp.length ∧
    ofDigits w.base (sqrRows w (x :: t) rp) =
      ofDigits w.base (rp.take t.length) + mixed w.base (x :: t) := by
  have h1 := w.one_lt_base
  induction t with
  | nil =>
    intro x rp hb hl hr hz
    obtain ⟨u, rfl⟩ := List.length_eq_one_iff.mp hl
    have hu : u = 0 := Option.some.inj hz
    rw [hu]
    refine ⟨Below.nil.cons (by omega), rfl, ?_⟩
    show 0 + _ * 0 = 0 + (x * 0 + _ * 0)
    rw [Nat.mul_zero, Nat.mul_zero, Nat.mul_zero]
  | cons y t ih =>
    intro x rp hb hl hr hz
    rw [List.length_cons] at hl
    have hrow := addRow_row (a := y :: t) hb.tail hr (hb x List.mem_cons_self) (by rw [List.length_cons]; omega)
    obtain ⟨h2, h3, h4, h5, h6⟩ := hrow.split (k := 2) (by rw [List.length_cons]; omega) (by
      rw [List.length_cons]; omega)
    rw [List.length_cons, show t.length + 1 + 1 - 2 = t.length by omega] at h5 h6
    have hz' := row_last hrow (k := 2) (by rw [List.length_cons]; omega) (by omega) hz
    obtain ⟨h7, h8, h9⟩ := ih y ((addRow w rp (y :: t) x).drop 2) hb.tail (by omega) h5 hz'
    have hs : sqrRows w (x :: y :: t) rp =
        (addRow w rp (y :: t) x).take 2 ++ sqrRows w (y :: t) ((addRow w rp (y :: t) x).drop 2) := rfl
    rw [hs]
    refine ⟨h2.append h7, ?_, ?_⟩
    · rw [List.length_append, h3, h8, h4]
      omega
    · rw [Nat.ofDigits_append, h3, h9, Nat.mul_add, ← Nat.add_assoc, h6]
      show ofDigits w.base (y :: t) * x + ofDigits w.base (rp.take (y :: t).length) +
        w.base ^ 2 * mixed w.base (y :: t) = _ + (x * ofDigits w.base (y :: t) + _)
      ring

/-- the words before the doubling -/
theorem mixedRows_eq (ha : Below w.base a) {r : List Nat} (hr : r.length = 2 * a.length) :
    Below w.base (mixedRows w r a) ∧ (mixedRows w r a).length = 2 * a.length ∧
    ofDigits w.base (mixedRows w r a) = w.base * mixed w.base a := by
  have h1 := w.one_lt_base
  match a, ha, hr with
  | [], _, hr =>
    rw [List.length_eq_zero_iff.mp hr]
    exact ⟨Below.nil, rfl, rfl⟩
  | [x], _, hr =>
    obtain ⟨u, v, rfl⟩ := List.length_eq_two.mp hr
    refine ⟨(Below.nil.cons (by omega)).cons (by omega), rfl, ?_⟩
    show 0 + _ * (0 + _ * 0) = _ * (x * 0 + _ * 0)
    simp only [Nat.mul_zero, Nat.add_zero]
  | x :: y :: t, ha, hr =>
    rw [List.length_cons, List.length_cons] at hr
    unfold mixedRows
    dsimp only
    generalize hr2 : (r.set 0 0).set (2 * (x :: y :: t).length - 1) 0 = r2
    have hl2 : r2.length = 2 * (t.length + 2) := by
      rw [← hr2, List.length_set, List.length_set, hr]
    have hl3 : (r2.drop 1).length = 2 * t.length + 3 := by
      rw [List.length_drop, hl2]
      omega
    -- the word in front of the rows, and the one behind them
    have hfirst : r2.take 1 = [0] := by
      obtain ⟨u, k, rfl⟩ := List.exists_cons_of_length_eq_add_one (show r.length = 2 * t.length + 3 + 1 by omega)
      rw [← hr2]
      rfl
    have hlast : (r2.drop 1).getLast? = some 0 := by
      rw [List.getLast?_drop, if_neg (by omega), List.getLast?_eq_getElem?, hl2, ← hr2, List.length_cons,
        List.length_cons, List.getElem?_set_self]
      rw [List.length_set, hr]
      omega
    have hrow := firstRow_row (a := y :: t) (r2.drop 1) ha.tail (ha x List.mem_cons_self) (by
      rw [List.length_cons]
      omega)
    obtain ⟨h2, h3, h4, h5, h6⟩ := hrow.split (k := 2) (by rw [List.length_cons]; omega) (by
      rw [List.length_cons]; omega)
    rw [List.length_cons, show t.length + 1 + 1 - 2 = t.length by omega] at h5 h6
    have hz := row_last hrow (k := 2) (by rw [List.length_cons]; omega) (by omega) hlast
    obtain ⟨h7, h8, h9⟩ := sqrRows_eq t y _ ha.tail (by omega) h5 hz
    rw [hfirst]
    refine ⟨(Below.nil.cons (by omega)).append (h2.append h7), ?_, ?_⟩
    · rw [List.length_append, List.length_append, h3, h8, h4]
      show 1 + _ = 2 * (t.length + 2)
      omega
    · rw [Nat.ofDigits_append, Nat.ofDigits_singleton, Nat.ofDigits_append, h3, h9, Nat.mul_add (w.base ^ 2),
        ← Nat.add_assoc (ofDigits _ _), h6]
      show 0 + w.base ^ 1 * (ofDigits w.base (y :: t) * x + w.base ^ 2 * mixed w.base (y :: t)) =
        w.base * (x * ofDigits w.base (y :: t) + _)
      ring

/-- **The square**, whatever the words were before: there is no carry out of the two sums. -/
theorem sqrNormal_eq (ha : Below w.base a) {r : List Nat} (hr : r.length = 2 * a.length) :
    Below w.base (sqrNormal w r a) ∧ (sqrNormal w r a).length = 2 * a.length ∧
    ofDigits w.base (sqrNormal w r a) = ofDigits w.base a * ofDigits w.base a := by
  have h1 := w.one_lt_base
  obtain ⟨h2, h3, h4⟩ := mixedRows_eq ha hr
  have hsq := square_eq ha
  have hlt : ofDigits w.base a * ofDigits w.base a < w.base ^ (2 * a.length) := by
    rw [Nat.two_mul, Nat.pow_add]
    exact Nat.mul_lt_mul'' (Below.lt h1 ha) (Below.lt h1 ha)
  have hno {c k n p : Nat} (h : k + p * c = n) (hn : n < p) : c = 0 := by
    by_contra hc
    have := Nat.mul_le_mul_left p (Nat.pos_of_ne_zero hc)
    omega
  unfold sqrNormal
  dsimp only
  generalize mixedRows w r a = m at *
  obtain ⟨hd, -⟩ := addWords_eq h2 h2 rfl
  have hdv := hd.value
  have hdb := hd.below
  have hdl := hd.length
  rw [h3, h4] at hdv
  have hc := hno hdv (by omega)
  rw [hc, Nat.mul_zero, Nat.add_zero] at hdv
  generalize (addWords w m m).1 = d at *
  obtain ⟨hs, -⟩ := addWords_eq hdb (sqrWords_below ha) (by rw [hdl, h3, sqrWords_length])
  have hsv := hs.value
  rw [hdl, h3, hdv] at hsv
  have hc2 := hno hsv (by omega)
  rw [hc2, Nat.mul_zero, Nat.add_zero] at hsv
  exact ⟨hs.below, by rw [hs.length, hdl, h3], by omega⟩

end Bn

namespace BigNum
open Nat (ofDigits digits)
open Limbs Bn

section
variable (w : WordSize)

/-- `BN_mul`; the words of the result are written whatever they were -/
def mul (a b : BigNum) : BigNum :=
  if a.d.length = 0 ∨ b.d.length = 0 then zero
  else ⟨trim (mulNormal w (List.replicate (a.d.length + b.d.length) 0) a.d b.d), a.neg != b.neg⟩

/-- `BN_sqr` into a number with the sign `neg`, which it leaves as it is if `a` is zero -/
def sqr (neg : Bool) (a : BigNum) : BigNum :=
  if a.d.length = 0 then ⟨[], neg⟩
  else
    let max := 2 * a.d.length
    let t := sqrNormal w (List.replicate max 0) a.d
    ⟨if t.getD (max - 1) 0 = 0 then t.take (max - 1) else t, false⟩

end

variable {w : WordSize} {a b : BigNum} {x y : Int}

theorem Is.length_eq_zero (ha : Is w a x) : a.d.length = 0 ↔ x = 0 := by
  rw [ha.d, List.length_eq_zero_iff, Nat.digits_eq_nil_iff_eq_zero, Int.natAbs_eq_zero]

theorem mul_is (ha : Is w a x) (hb : Is w b y) : Is w (mul w a b) (x * y) := by
  unfold mul
  by_cases h0 : x = 0 ∨ y = 0
  · rw [if_pos (by rw [ha.length_eq_zero, hb.length_eq_zero]; exact h0), Int.mul_eq_zero.mpr h0]
    exact zero_is w
  · rw [if_neg (by rw [ha.length_eq_zero, hb.length_eq_zero]; exact h0)]
    rw [not_or] at h0
    have ha0 : a.d ≠ [] := fun h => h0.1 (ha.length_eq_zero.mp (by rw [h]; rfl))
    have hb0 : b.d ≠ [] := fun h => h0.2 (hb.length_eq_zero.mp (by rw [h]; rfl))
    obtain ⟨h1, -, h3⟩ := mulNormal_eq ha.below hb.below ha0 hb0
      (r := List.replicate (a.d.length + b.d.length) 0) List.length_replicate
    refine ⟨?_, ?_⟩
    · show trim _ = _
      rw [trim_eq_digits w.one_lt_base h1, h3, ha.value, hb.value, Int.natAbs_mul]
    · show (a.neg != b.neg) = _
      rw [ha.neg, hb.neg]
      rcases lt_or_gt_of_ne h0.1 with hx | hx <;> rcases lt_or_gt_of_ne h0.2 with hy | hy
      · have := Int.mul_pos_of_neg_of_neg hx hy
        rw [decide_eq_true hx, decide_eq_true hy, decide_eq_false (Int.lt_asymm this)]
        rfl
      · have := Int.mul_neg_of_neg_of_pos hx hy
        rw [decide_eq_true hx, decide_eq_false (Int.lt_asymm hy), decide_eq_true this]
        rfl
      · have := Int.mul_neg_of_pos_of_neg hx hy
        rw [decide_eq_false (Int.lt_asymm hx), decide_eq_true hy, decide_eq_true this]
        rfl
      · have := Int.mul_pos hx hy
        rw [decide_eq_false (Int.lt_asymm hx), decide_eq_false (Int.lt_asymm hy),
          decide_eq_false (Int.lt_asymm this)]
        rfl

theorem sqr_is (ha : Is w a x) : Is w (sqr w false a) (x * x) := by
  have h1 := w.one_lt_base
  unfold sqr
  by_cases h0 : x = 0
  · rw [if_pos (ha.length_eq_zero.mpr h0), h0]
    exact zero_is w
  · rw [if_neg (fun h => h0 (ha.length_eq_zero.mp h))]
    have hpos : 0 < a.d.length := Nat.pos_of_ne_zero fun h => h0 (ha.length_eq_zero.mp h)
    obtain ⟨h2, h3, h4⟩ := sqrNormal_eq ha.below (r := List.replicate (2 * a.d.length) 0) List.length_replicate
    have hlow : w.base ^ (a.d.length - 1) ≤ x.natAbs := by
      rw [ha.d]
      exact le_digits h1 (by rwa [Ne, Int.natAbs_eq_zero])
    dsimp only
    generalize sqrNormal w (List.replicate (2 * a.d.length) 0) a.d = t at *
    rw [ha.value] at h4
    -- at most the highest word is zero
    have hge : w.base ^ (2 * a.d.length - 1 - 1) ≤ ofDigits w.base t := by
      rw [h4, show 2 * a.d.length - 1 - 1 = (a.d.length - 1) + (a.d.length - 1) by omega, Nat.pow_add]
      exact Nat.mul_le_mul hlow hlow
    have hsq : (x * x).natAbs = x.natAbs * x.natAbs := Int.natAbs_mul x x
    have hneg : decide (x * x < 0) = false := decide_eq_false (Int.not_lt.mpr (mul_self_nonneg x))
    obtain ⟨t', u, rfl⟩ : ∃ t' u, t = t' ++ [u] := by
      have hne : t ≠ [] := List.ne_nil_of_length_pos (by omega)
      exact ⟨_, _, (List.dropLast_append_getLast hne).symm⟩
    rw [List.length_append] at h3
    have hl' : t'.length = 2 * a.d.length - 1 := by
      have h3 : t'.length + 1 = 2 * a.d.length := h3
      omega
    rw [← hl', List.getD_append_right _ _ _ _ (Nat.le_refl _), Nat.sub_self]
    rw [← hl'] at hge
    show Is w ⟨if u = 0 then (t' ++ [u]).take t'.length else t' ++ [u], false⟩ _
    split
    · next hu =>
      have hv : ofDigits w.base t' = ofDigits w.base (t' ++ [u]) := by
        rw [hu, Nat.ofDigits_append_zero]
      have hb' : Below w.base t' := fun z hz => h2 z (List.mem_append_left _ hz)
      rw [← hv] at hge h4
      refine ⟨?_, hneg.symm⟩
      show (t' ++ [u]).take t'.length = _
      rw [List.take_left', hsq, ← h4]
      · exact eq_digits h1 hb' (top_of_le h1 hb' hge)
      · rfl
    · next hu =>
      refine ⟨?_, hneg.symm⟩
      show t' ++ [u] = _
      rw [hsq, ← h4]
      refine eq_digits h1 h2 fun _ => ?_
      rw [List.getLast_concat]
      exact hu

theorem sqr_sign (ha : Is w a x) (neg : Bool) :
    sqr w neg a = if x = 0 then ⟨[], neg⟩ else sqr w false a := by
  unfold sqr
  by_cases h0 : x = 0
  · rw [if_pos (ha.length_eq_zero.mpr h0), if_pos h0]
  · have hd : ¬ a.d.length = 0 := fun h => h0 (ha.length_eq_zero.mp h)
    rw [if_neg hd, if_neg h0, if_neg hd]

/-- **A square is the product** of a number with itself: the same words, and the same sign unless the
square of zero is put in a negative number. -/
theorem square_is_product (ha : Is w a x) (neg : Bool) :
    (sqr w neg a).d = (mul w a a).d ∧ (sqr w neg a = mul w a a ↔ x = 0 → neg = false) := by
  have hs : sqr w false a = mul w a a := (sqr_is ha).unique (mul_is ha ha)
  rw [sqr_sign ha]
  by_cases h0 : x = 0
  · have hz : mul w a a = zero := by
      unfold mul
      rw [if_pos (.inl (ha.length_eq_zero.mpr h0))]
    rw [if_pos h0, hz]
    refine ⟨rfl, fun h _ => congrArg BigNum.neg h, fun h => ?_⟩
    rw [h h0]
    rfl
  · rw [if_neg h0]
    exact ⟨congrArg BigNum.d hs, fun _ h => absurd h h0, fun _ => hs⟩

theorem square_is_product_top : sqr .sixtyFourBit true ⟨[18446744073709551615, 4294967295], true⟩ =
    mul .sixtyFourBit ⟨[18446744073709551615, 4294967295], true⟩ ⟨[18446744073709551615, 4294967295], true⟩ :=
  (square_is_product (x := -79228162514264337593543950335) ⟨by decide +kernel, by decide⟩ true).2.mpr
    fun h => absurd h (by decide)

end BigNum
