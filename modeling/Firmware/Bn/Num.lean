import Firmware.Bn.Words
import Firmware.Lib.Bits

/-!
# tinysrp: large numbers

`bn_lib.c`, `bn_add.c` and `bn_shift.c`.  Every allocation succeeds.

* `BigNum`                       the words below `top`, and the sign;
* `Is w x z`                     `x` is the integer `z`, in its normal form;
* `ucmp`, `cmp`                  comparison;
* `uadd`, `usub`, `add`, `sub`   sums and differences;
* `lshift`, `rshift`             shifts;
* `numBits`, `isBitSet`          bits;
* `bin2bn`, `bn2bin`             network order.
-/

set_option linter.unusedVariables false

/-- `BIGNUM`: the words of `d` below `top` -/
structure BigNum where
  d : List Nat
  neg : Bool
deriving DecidableEq

namespace BigNum
open Nat (ofDigits digits)
open Limbs Bn

section
variable (w : WordSize)

def zero : BigNum := ⟨[], false⟩

/-- `BN_set_word` -/
def ofWord (n : Nat) : BigNum := ⟨if n ≠ 0 then [n] else [], false⟩

/-! ## comparison -/

/-- the sign of `BN_ucmp` -/
def ucmpWords (a b : List Nat) : Ordering :=
  if a.length ≠ b.length then compare a.length b.length else compareTop a.reverse b.reverse

def ucmp (a b : BigNum) : Ordering := ucmpWords a.d b.d

/-- the sign of `BN_cmp` -/
def cmp (a b : BigNum) : Ordering :=
  if a.neg ≠ b.neg then (if a.neg then .lt else .gt)
  else if a.neg then (ucmpWords a.d b.d).swap
  else ucmpWords a.d b.d

/-! ## sums and differences -/

/-- the carry behind the shorter number, and the word above the longer one -/
def carryUp : List Nat → List Nat
  | [] => [1]
  | t1 :: ap =>
    let r := (t1 + 1) % w.base
    if r ≥ t1 then r :: ap else r :: carryUp ap

/-- the words of `BN_uadd`, where `a` is not the shorter one -/
def uaddLong (a b : List Nat) : List Nat :=
  let s := addWords w (a.take b.length) b
  s.1 ++ if s.2 ≠ 0 then carryUp w (a.drop b.length) else a.drop b.length

/-- `BN_uadd` -/
def uadd (a b : List Nat) : List Nat := if a.length < b.length then uaddLong w b a else uaddLong w a b

/-- one turn of the first loop of `BN_usub` -/
def subTurn (t : Nat × Nat) (carry : Nat) : Nat × Nat :=
  if carry ≠ 0 then ((t.1 + w.base - t.2 - 1) % w.base, if t.1 ≤ t.2 then 1 else 0)
  else ((t.1 + w.base - t.2) % w.base, if t.1 < t.2 then 1 else 0)

def borrowUp : List Nat → List Nat
  | [] => []
  | t1 :: ap =>
    let t2 := (t1 + w.base - 1) % w.base
    if t1 > t2 then t2 :: ap else t2 :: borrowUp ap

/-- the words that `BN_usub` writes -/
def usubWords (a b : List Nat) : List Nat :=
  let s := chain (subTurn w) ((a.take b.length).zip b) 0
  s.1 ++ if s.2 ≠ 0 then borrowUp w (a.drop b.length) else a.drop b.length

/-- `BN_usub` -/
def usub (a b : List Nat) : Option (List Nat) :=
  if a.length < b.length then none else some (trim (usubWords w a b))

/-- `BN_add` -/
def add (a b : BigNum) : Option BigNum :=
  if a.neg ≠ b.neg then
    let (a, b) := if a.neg then (b, a) else (a, b)
    if ucmp a b = .lt then (usub w b.d a.d).map (⟨·, true⟩) else (usub w a.d b.d).map (⟨·, false⟩)
  else some ⟨uadd w a.d b.d, a.neg⟩

/-- `BN_sub` -/
def sub (a b : BigNum) : Option BigNum :=
  if a.neg ≠ b.neg then some ⟨uadd w a.d b.d, a.neg⟩
  else
    let (a, b) := if a.neg then (b, a) else (a, b)
    if ucmp a b = .lt then (usub w b.d a.d).map (⟨·, true⟩) else (usub w a.d b.d).map (⟨·, false⟩)

/-! ## shifts -/

/-- one turn of the loop of `BN_lshift`; `t` are the words that are written -/
def lshiftTurn (lb l : Nat) (t : List Nat) : List Nat :=
  match t with
  | [] => []
  | u :: t => l * 2 ^ lb % w.base :: (u ||| l / 2 ^ (w.bits2 - lb)) :: t

def lshift (a : BigNum) (n : Nat) : BigNum :=
  let nw := n / w.bits2
  let lb := n % w.bits2
  let t := if lb = 0 then a.d ++ [0] else a.d.foldr (lshiftTurn w lb) [0]
  ⟨trim (List.replicate nw 0 ++ t), a.neg⟩

/-- the loop of `BN_rshift`, with the word `l` that was read -/
def rshiftLoop (rb : Nat) : Nat → List Nat → List Nat
  | l, [] => [l / 2 ^ rb]
  | l, f :: fs => (l / 2 ^ rb ||| f * 2 ^ (w.bits2 - rb) % w.base) :: rshiftLoop rb f fs

/-- with `nw = top` a word behind the number is read, and not used -/
def rshift (a : BigNum) (n : Nat) : BigNum :=
  let nw := n / w.bits2
  let rb := n % w.bits2
  if nw > a.d.length ∨ a.d.length = 0 then zero
  else
    match a.d.drop nw with
    | [] => ⟨[], a.neg⟩
    | l :: f => ⟨trim (if rb = 0 then l :: f else rshiftLoop w rb l f), a.neg⟩

/-! ## bits and bytes -/

/-- `BN_num_bits` -/
def numBits (a : BigNum) : Nat :=
  match a.d.getLast? with
  | none => 0
  | some l => (a.d.length - 1) * w.bits2 + numBitsWord w l

/-- `BN_is_bit_set` -/
def isBitSet (a : BigNum) (n : Nat) : Bool :=
  if a.d.length ≤ n / w.bits2 then false else (a.d.getD (n / w.bits2) 0).testBit (n % w.bits2)

/-- `l`, `m` and the words from `d[i]` on -/
structure Reading where
  l : Nat
  m : Nat
  d : List Nat

/-- one turn of the loop of `BN_bin2bn` -/
def readByte (r : Reading) (b : UInt8) : Reading :=
  let l := r.l * 256 % w.base ||| b.toNat
  if r.m = 0 then ⟨0, w.bytes - 1, l :: r.d⟩ else ⟨l, r.m - 1, r.d⟩

def bin2bn (s : List UInt8) : BigNum :=
  if s.length = 0 then zero
  else ⟨trim (s.foldl (readByte w) ⟨0, (s.length - 1) % w.bytes, []⟩).d, false⟩

/-- `BN_num_bytes` -/
def numBytes (a : BigNum) : Nat := (numBits w a + 7) / 8

def bn2bin (a : BigNum) : List UInt8 :=
  (List.range (numBytes w a)).reverse.map fun i =>
    UInt8.ofNat (a.d.getD (i / w.bytes) 0 / 2 ^ (8 * (i % w.bytes)))

end

/-! ## the numbers they stand for -/

/-- `x` is the integer `z` -/
structure Is (w : WordSize) (x : BigNum) (z : Int) : Prop where
  d : x.d = digits w.base z.natAbs
  neg : x.neg = decide (z < 0)

variable {w : WordSize} {a b : BigNum} {x y : Int} {m n : Nat}

theorem Is.below (h : Is w a x) : Below w.base a.d := by
  rw [h.d]
  exact fun y hy => Nat.digits_lt_base w.one_lt_base hy

theorem Is.value (h : Is w a x) : ofDigits w.base a.d = x.natAbs := by
  rw [h.d, Nat.ofDigits_digits]

/-- the words of a number that is not negative -/
theorem is_nat {l : List Nat} (h : l = digits w.base n) : Is w ⟨l, false⟩ n :=
  ⟨h, (decide_eq_false (by omega)).symm⟩

theorem Is.unique (ha : Is w a x) (hb : Is w b x) : a = b := by
  cases a
  cases b
  congr 1
  · exact ha.d.trans hb.d.symm
  · exact ha.neg.trans hb.neg.symm

theorem zero_is (w : WordSize) : Is w zero 0 := ⟨(Nat.digits_zero _).symm, rfl⟩

theorem ofWord_is (h : n < w.base) : Is w (ofWord n) n := by
  unfold ofWord
  apply is_nat
  split
  · next h0 => exact (Nat.digits_of_lt _ _ h0 h).symm
  · next h0 =>
    rw [not_ne_iff.mp h0, Nat.digits_zero]

/-! ## comparison -/

theorem ucmpWords_eq (m n : Nat) : ucmpWords (digits w.base m) (digits w.base n) = compare m n := by
  have h1 := w.one_lt_base
  unfold ucmpWords
  by_cases hl : (digits w.base m).length = (digits w.base n).length
  · rw [if_neg (by omega), compareTop_reverse h1 _ _ hl (fun y hy => Nat.digits_lt_base h1 hy)
      (fun y hy => Nat.digits_lt_base h1 hy), Nat.ofDigits_digits, Nat.ofDigits_digits]
  · rw [if_pos hl]
    rcases Nat.lt_trichotomy m n with h | h | h
    · have := digits_length_mono w.base (Nat.le_of_lt h)
      rw [Nat.compare_eq_lt.mpr h, Nat.compare_eq_lt.mpr (by omega)]
    · exact absurd (by rw [h]) hl
    · have := digits_length_mono w.base (Nat.le_of_lt h)
      rw [Nat.compare_eq_gt.mpr h, Nat.compare_eq_gt.mpr (by omega)]

theorem ucmp_eq (ha : Is w a x) (hb : Is w b y) : ucmp a b = compare x.natAbs y.natAbs := by
  unfold ucmp
  rw [ha.d, hb.d, ucmpWords_eq]

theorem cmp_eq (ha : Is w a x) (hb : Is w b y) : cmp a b = compare x y := by
  unfold cmp
  rw [ha.d, hb.d, ha.neg, hb.neg, ucmpWords_eq]
  simp only [decide_eq_true_eq, ne_eq, decide_eq_decide]
  by_cases hx : x < 0 <;> by_cases hy : y < 0
  · rw [if_neg (by simp [hx, hy]), if_pos hx]
    rcases lt_trichotomy x y with h | h | h
    · rw [Nat.compare_eq_gt.mpr (by omega), compare_lt_iff_lt.mpr h]
      rfl
    · rw [h, Nat.compare_eq_eq.mpr rfl, compare_eq_iff_eq.mpr rfl]
      rfl
    · rw [Nat.compare_eq_lt.mpr (by omega), compare_gt_iff_gt.mpr h]
      rfl
  · rw [if_pos (by simp [hx, hy]), if_pos hx, compare_lt_iff_lt.mpr (by omega)]
  · rw [if_pos (by simp [hx, hy]), if_neg hx, compare_gt_iff_gt.mpr (by omega)]
  · rw [if_neg (by simp [hx, hy]), if_neg hx]
    rcases lt_trichotomy x y with h | h | h
    · rw [Nat.compare_eq_lt.mpr (by omega), compare_lt_iff_lt.mpr h]
    · rw [h, Nat.compare_eq_eq.mpr rfl, compare_eq_iff_eq.mpr rfl]
    · rw [Nat.compare_eq_gt.mpr (by omega), compare_gt_iff_gt.mpr h]

/-! ## sums -/

theorem carryUp_eq (l : List Nat) : Below w.base l → Below w.base (carryUp w l) ∧
    ofDigits w.base (carryUp w l) = ofDigits w.base l + 1 := by
  have h1 := w.one_lt_base
  induction l with
  | nil =>
    intro _
    exact ⟨Below.nil.cons h1, rfl⟩
  | cons t l ih =>
    intro h
    have ht := h t List.mem_cons_self
    have hl : Below w.base l := h.tail
    obtain ⟨h2, h3⟩ := ih hl
    unfold carryUp
    dsimp only
    by_cases hw : t + 1 < w.base
    · rw [Nat.mod_eq_of_lt hw, if_pos (by omega)]
      refine ⟨hl.cons hw, ?_⟩
      rw [Nat.ofDigits_cons, Nat.ofDigits_cons]
      omega
    · have he : t + 1 = w.base := by omega
      rw [he, Nat.mod_self, if_neg (by omega)]
      refine ⟨h2.cons (by omega), ?_⟩
      rw [Nat.ofDigits_cons, Nat.ofDigits_cons, h3, Nat.mul_add]
      omega

/-- the word above is a one, or the highest word stays, or grows -/
theorem carryUp_top (l : List Nat) : Below w.base l → (∀ h : l ≠ [], l.getLast h ≠ 0) →
    ∀ h : carryUp w l ≠ [], (carryUp w l).getLast h ≠ 0 := by
  induction l with
  | nil =>
    intro _ _ h
    exact Nat.one_ne_zero
  | cons t l ih =>
    intro hb ht
    have hlt := hb t List.mem_cons_self
    have hl : Below w.base l := hb.tail
    unfold carryUp
    dsimp only
    split
    · next hr =>
      intro h
      cases l with
      | nil =>
        have h0 : t ≠ 0 := ht (List.cons_ne_nil _ _)
        show (t + 1) % w.base ≠ 0
        omega
      | cons u l =>
        have := ht (List.cons_ne_nil _ _)
        rwa [List.getLast_cons_cons] at this ⊢
    · intro h
      have hne : carryUp w l ≠ [] := by
        cases l with
        | nil => exact List.cons_ne_nil _ _
        | cons u l =>
          unfold carryUp
          dsimp only
          split <;> exact List.cons_ne_nil _ _
      rw [List.getLast_cons hne]
      refine ih hl ?_ hne
      intro hnl
      have := ht (List.cons_ne_nil _ _)
      rwa [List.getLast_cons hnl] at this

theorem uaddLong_eq {a b : List Nat} (ha : Below w.base a) (hb : Below w.base b) (hl : b.length ≤ a.length)
    (ht : ∀ h : a ≠ [], a.getLast h ≠ 0) :
    uaddLong w a b = digits w.base (ofDigits w.base a + ofDigits w.base b) := by
  have h1 := w.one_lt_base
  have htl : (a.take b.length).length = b.length := List.length_take_of_le hl
  obtain ⟨hs, hc⟩ := addWords_eq (ha.take b.length) hb htl
  rw [htl] at hs
  have hlen := hs.length
  have hval := hs.value
  have hsplit := ofDigits_take_drop w.base a hl
  have hdt : ∀ h : a.drop b.length ≠ [], (a.drop b.length).getLast h ≠ 0 := by
    intro h
    rw [List.getLast_drop h]
    exact ht _
  -- a carry goes on behind the shorter number
  have hkey : Below w.base (uaddLong w a b) ∧
      ofDigits w.base (uaddLong w a b) = ofDigits w.base a + ofDigits w.base b ∧
      ∀ h : uaddLong w a b ≠ [], (uaddLong w a b).getLast h ≠ 0 := by
    unfold uaddLong
    dsimp only
    generalize addWords w (a.take b.length) b = s at *
    by_cases h0 : s.2 ≠ 0
    · have hs2 : s.2 = 1 := by omega
      obtain ⟨h2, h3⟩ := carryUp_eq (a.drop b.length) (ha.drop _)
      rw [if_pos h0]
      refine ⟨hs.below.append h2, ?_, ?_⟩
      · rw [Nat.ofDigits_append, h3, hlen, hsplit]
        rw [hs2] at hval
        rw [Nat.mul_add]
        omega
      · intro h
        have hne : carryUp w (a.drop b.length) ≠ [] := by
          intro hn
          rw [hn] at h3
          exact absurd h3.symm (Nat.succ_ne_zero _)
        rw [List.getLast_append_of_ne_nil h hne]
        exact carryUp_top _ (ha.drop _) hdt hne
    · rw [if_neg h0]
      rw [not_ne_iff.mp h0, Nat.mul_zero, Nat.add_zero] at hval
      have hbel := hs.below.append (ha.drop b.length)
      have hv : ofDigits w.base (s.1 ++ a.drop b.length) = ofDigits w.base a + ofDigits w.base b := by
        rw [Nat.ofDigits_append, hval, hlen, hsplit]
        omega
      refine ⟨hbel, hv, ?_⟩
      by_cases hz : a = []
      · intro h
        have : b = [] := List.length_eq_zero_iff.mp (by rw [hz] at hl; exact Nat.le_zero.mp hl)
        rw [hz, this] at h
        rw [this] at hlen
        exact absurd (by rw [List.length_eq_zero_iff.mp hlen]; rfl) h
      · apply top_of_le h1 hbel
        rw [hv, List.length_append, hlen, List.length_drop, Nat.add_sub_cancel' hl]
        have hle := le_digits h1 (n := ofDigits w.base a) (by
          intro hn
          have := eq_digits h1 ha ht
          rw [hn, Nat.digits_zero] at this
          exact hz this)
        rw [← eq_digits h1 ha ht] at hle
        omega
  obtain ⟨k1, k2, k3⟩ := hkey
  rw [← k2]
  exact eq_digits h1 k1 k3

theorem digits_top (w : WordSize) (n : Nat) : ∀ h : digits w.base n ≠ [], (digits w.base n).getLast h ≠ 0 :=
  fun h => Nat.getLast_digit_ne_zero _ (Nat.digits_ne_nil_iff_ne_zero.mp h)

theorem digits_below (w : WordSize) (n : Nat) : Below w.base (digits w.base n) :=
  fun x hx => Nat.digits_lt_base w.one_lt_base hx

theorem uadd_eq (w : WordSize) (m n : Nat) :
    uadd w (digits w.base m) (digits w.base n) = digits w.base (m + n) := by
  unfold uadd
  split
  · next h =>
    rw [uaddLong_eq (digits_below w n) (digits_below w m) (Nat.le_of_lt h) (digits_top w n),
      Nat.ofDigits_digits, Nat.ofDigits_digits, Nat.add_comm]
  · next h =>
    rw [uaddLong_eq (digits_below w m) (digits_below w n) (Nat.le_of_not_lt h) (digits_top w m),
      Nat.ofDigits_digits, Nat.ofDigits_digits]

/-! ## differences -/

theorem subTurn_lend {t : Nat × Nat} {c : Nat} (h1 : t.1 < w.base) (h2 : t.2 < w.base) (hc : c ≤ 1) :
    Lend w.base (subTurn w) t c := by
  by_cases h0 : c ≠ 0
  · by_cases hle : t.1 ≤ t.2
    · have he : subTurn w t c = (t.1 + w.base - t.2 - 1, 1) := by
        unfold subTurn
        rw [if_pos h0, if_pos hle, Nat.mod_eq_of_lt (by omega)]
      exact Lend.of he (by omega) (by omega) (Nat.le_refl 1)
    · have he : subTurn w t c = (t.1 - t.2 - 1, 0) := by
        unfold subTurn
        rw [if_pos h0, if_neg hle, show t.1 + w.base - t.2 - 1 = t.1 - t.2 - 1 + w.base by omega,
          Nat.add_mod_right, Nat.mod_eq_of_lt (by omega)]
      exact Lend.of he (by omega) (by omega) (Nat.zero_le 1)
  · by_cases hlt : t.1 < t.2
    · have he : subTurn w t c = (t.1 + w.base - t.2, 1) := by
        unfold subTurn
        rw [if_neg h0, if_pos hlt, Nat.mod_eq_of_lt (by omega)]
      exact Lend.of he (by omega) (by omega) (Nat.le_refl 1)
    · have he : subTurn w t c = (t.1 - t.2, 0) := by
        unfold subTurn
        rw [if_neg h0, if_neg hlt, show t.1 + w.base - t.2 = t.1 - t.2 + w.base by omega,
          Nat.add_mod_right, Nat.mod_eq_of_lt (by omega)]
      exact Lend.of he (by omega) (by omega) (Nat.zero_le 1)

theorem borrowUp_eq (l : List Nat) : Below w.base l → 0 < ofDigits w.base l → Below w.base (borrowUp w l) ∧
    (borrowUp w l).length = l.length ∧ ofDigits w.base (borrowUp w l) + 1 = ofDigits w.base l := by
  have h1 := w.one_lt_base
  induction l with
  | nil =>
    intro _ h
    exact absurd h (Nat.lt_irrefl 0)
  | cons t l ih =>
    intro hb h0
    have ht := hb t List.mem_cons_self
    have hl : Below w.base l := hb.tail
    unfold borrowUp
    dsimp only
    rw [Nat.ofDigits_cons] at h0 ⊢
    by_cases hz : t = 0
    · have he : (t + w.base - 1) % w.base = w.base - 1 := by
        rw [hz, Nat.zero_add, Nat.mod_eq_of_lt (by omega)]
      have hpos : 0 < ofDigits w.base l := by
        rw [hz, Nat.zero_add] at h0
        exact Nat.pos_of_mul_pos_left h0
      obtain ⟨h2, h3, h4⟩ := ih hl hpos
      rw [he, if_neg (by omega)]
      refine ⟨h2.cons (by omega), congrArg (· + 1) h3, ?_⟩
      rw [Nat.ofDigits_cons, ← h4, Nat.mul_add]
      omega
    · have he : (t + w.base - 1) % w.base = t - 1 := by
        rw [show t + w.base - 1 = t - 1 + w.base by omega, Nat.add_mod_right, Nat.mod_eq_of_lt (by omega)]
      rw [he, if_pos (by omega)]
      refine ⟨hl.cons (by omega), rfl, ?_⟩
      rw [Nat.ofDigits_cons]
      omega

theorem usubWords_eq {a b : List Nat} (ha : Below w.base a) (hb : Below w.base b) (hl : b.length ≤ a.length)
    (hle : ofDigits w.base b ≤ ofDigits w.base a) : Below w.base (usubWords w a b) ∧
    (usubWords w a b).length = a.length ∧
    ofDigits w.base (usubWords w a b) = ofDigits w.base a - ofDigits w.base b := by
  have h1 := w.one_lt_base
  have htl : (a.take b.length).length = b.length := List.length_take_of_le hl
  have hz : ((a.take b.length).zip b).length = b.length := by
    rw [List.length_zip, htl, Nat.min_self]
  obtain ⟨h2, h3, h4⟩ := borrows_spec ((a.take b.length).zip b) (fun t ht c hc =>
    subTurn_lend (mem_zip_below (ha.take _) hb ht).1 (mem_zip_below (ha.take _) hb ht).2 hc) 0 (Nat.zero_le 1)
  have hlen := chain_length (subTurn w) ((a.take b.length).zip b) 0
  have hsplit := ofDigits_take_drop w.base a hl
  rw [List.map_snd_zip (by omega), List.map_fst_zip (by omega), hz, Nat.add_zero] at h3
  rw [hz] at hlen
  unfold usubWords
  dsimp only
  generalize chain (subTurn w) ((a.take b.length).zip b) 0 = s at *
  have hds : (a.drop b.length).length = a.length - b.length := List.length_drop
  by_cases h0 : s.2 ≠ 0
  · have hs2 : s.2 = 1 := by omega
    rw [hs2, Nat.mul_one] at h3
    -- there is something to borrow from, or `b` would be the larger one
    have hpos : 0 < ofDigits w.base (a.drop b.length) := by
      by_contra hc
      rw [Nat.eq_zero_of_not_pos hc, Nat.mul_zero, Nat.add_zero] at hsplit
      have hlt := Below.lt h1 h2
      rw [hlen] at hlt
      omega
    obtain ⟨h5, h6, h7⟩ := borrowUp_eq (a.drop b.length) (ha.drop _) hpos
    rw [if_pos h0]
    refine ⟨h2.append h5, ?_, ?_⟩
    · rw [List.length_append, hlen, h6, hds]
      omega
    · rw [Nat.ofDigits_append, hlen, hsplit, ← h7, Nat.mul_add]
      omega
  · rw [not_ne_iff.mp h0, Nat.mul_zero, Nat.add_zero] at h3
    rw [if_neg h0]
    refine ⟨h2.append (ha.drop _), ?_, ?_⟩
    · rw [List.length_append, hlen, hds]
      omega
    · rw [Nat.ofDigits_append, hlen, hsplit]
      omega

theorem usub_eq (w : WordSize) {m n : Nat} (h : n ≤ m) :
    usub w (digits w.base m) (digits w.base n) = some (digits w.base (m - n)) := by
  have hl := digits_length_mono w.base h
  obtain ⟨h2, -, h3⟩ := usubWords_eq (digits_below w m) (digits_below w n) hl (by
    rw [Nat.ofDigits_digits, Nat.ofDigits_digits]
    exact h)
  unfold usub
  rw [if_neg (by omega), trim_eq_digits w.one_lt_base h2, h3, Nat.ofDigits_digits, Nat.ofDigits_digits]

/-- `BN_add` and `BN_sub` once the signs are sorted out -/
theorem diff_is (w : WordSize) (m n : Nat) (r : Option BigNum)
    (hr : r = if compare m n = .lt then (usub w (digits w.base n) (digits w.base m)).map (⟨·, true⟩)
      else (usub w (digits w.base m) (digits w.base n)).map (⟨·, false⟩)) :
    ∃ c, r = some c ∧ Is w c (m - n) := by
  rw [hr]
  by_cases h : m < n
  · rw [if_pos (Nat.compare_eq_lt.mpr h), usub_eq w (Nat.le_of_lt h)]
    exact ⟨_, rfl, by rw [show ((m : Int) - n).natAbs = n - m by omega], (decide_eq_true (by omega)).symm⟩
  · rw [if_neg (fun hc => h (Nat.compare_eq_lt.mp hc)), usub_eq w (Nat.le_of_not_lt h)]
    exact ⟨_, rfl, by rw [show ((m : Int) - n).natAbs = m - n by omega], (decide_eq_false (by omega)).symm⟩

theorem sum_is (w : WordSize) {x y : Int} (h : x < 0 ↔ y < 0) :
    Is w ⟨uadd w (digits w.base x.natAbs) (digits w.base y.natAbs), decide (x < 0)⟩ (x + y) := by
  refine ⟨?_, ?_⟩
  · show uadd _ _ _ = _
    rw [uadd_eq]
    congr 1
    omega
  · show decide _ = decide _
    congr 1
    exact propext (by omega)

/-- **The sum**, for every pair of signs. -/
theorem add_is (ha : Is w a x) (hb : Is w b y) : ∃ c, add w a b = some c ∧ Is w c (x + y) := by
  have hu := ucmp_eq ha hb
  have hu' := ucmp_eq hb ha
  unfold add
  rw [ha.neg, hb.neg]
  by_cases hx : x < 0 <;> by_cases hy : y < 0
  · rw [if_neg (by simp [hx, hy]), ha.d, hb.d]
    exact ⟨_, rfl, sum_is w (by simp [hx, hy])⟩
  · rw [if_pos (by simp [hx, hy]), decide_eq_true hx, if_pos rfl]
    dsimp only
    rw [hu', ha.d, hb.d]
    obtain ⟨c, h1, h2⟩ := diff_is w y.natAbs x.natAbs _ rfl
    exact ⟨c, h1, by rwa [show x + y = (y.natAbs : Int) - x.natAbs by omega]⟩
  · rw [if_pos (by simp [hx, hy]), decide_eq_false hx, if_neg Bool.false_ne_true]
    dsimp only
    rw [hu, ha.d, hb.d]
    obtain ⟨c, h1, h2⟩ := diff_is w x.natAbs y.natAbs _ rfl
    exact ⟨c, h1, by rwa [show x + y = (x.natAbs : Int) - y.natAbs by omega]⟩
  · rw [if_neg (by simp [hx, hy]), ha.d, hb.d]
    exact ⟨_, rfl, sum_is w (by simp [hx, hy])⟩

/-- **The difference**, for every pair of signs. -/
theorem sub_is (ha : Is w a x) (hb : Is w b y) : ∃ c, sub w a b = some c ∧ Is w c (x - y) := by
  have hu := ucmp_eq ha hb
  have hu' := ucmp_eq hb ha
  have hn : (-y).natAbs = y.natAbs := Int.natAbs_neg y
  unfold sub
  rw [ha.neg, hb.neg]
  by_cases hx : x < 0 <;> by_cases hy : y < 0
  · rw [if_neg (by simp [hx, hy]), decide_eq_true hx, if_pos rfl]
    dsimp only
    rw [hu', ha.d, hb.d]
    obtain ⟨c, h1, h2⟩ := diff_is w y.natAbs x.natAbs _ rfl
    exact ⟨c, h1, by rwa [show x - y = (y.natAbs : Int) - x.natAbs by omega]⟩
  · rw [if_pos (by simp [hx, hy]), ha.d, hb.d]
    refine ⟨_, rfl, ?_, ?_⟩
    · show uadd _ _ _ = _
      rw [uadd_eq]
      congr 1
      omega
    · show decide _ = decide _
      congr 1
      exact propext (by omega)
  · rw [if_pos (by simp [hx, hy]), ha.d, hb.d]
    refine ⟨_, rfl, ?_, ?_⟩
    · show uadd _ _ _ = _
      rw [uadd_eq]
      congr 1
      omega
    · show decide _ = decide _
      congr 1
      exact propext (by omega)
  · rw [if_neg (by simp [hx, hy]), decide_eq_false hx, if_neg Bool.false_ne_true]
    dsimp only
    rw [hu, ha.d, hb.d]
    obtain ⟨c, h1, h2⟩ := diff_is w x.natAbs y.natAbs _ rfl
    exact ⟨c, h1, by rwa [show x - y = (x.natAbs : Int) - y.natAbs by omega]⟩

/-- **A sum less one of its terms** is the other one, word for word and with its sign. -/
theorem difference_of_sum (ha : Is w a x) (hb : Is w b y) :
    ∃ c, add w a b = some c ∧ sub w c b = some a ∧ ∃ d, sub w a b = some d ∧ add w d b = some a := by
  obtain ⟨c, hc, hcis⟩ := add_is ha hb
  obtain ⟨a1, h1, h1is⟩ := sub_is hcis hb
  obtain ⟨d, hd, hdis⟩ := sub_is ha hb
  obtain ⟨a2, h2, h2is⟩ := add_is hdis hb
  rw [Int.add_sub_cancel] at h1is
  rw [Int.sub_add_cancel] at h2is
  exact ⟨c, hc, h1.trans (congrArg some (h1is.unique ha)), d, hd, h2.trans (congrArg some (h2is.unique ha))⟩

/-- a borrow through two words, and a change of the sign -/
theorem difference_of_sum_borrow : ∃ c, add .thirtyTwoBit ⟨[0, 0, 1], false⟩ ⟨[1, 0, 1], true⟩ = some c ∧
    sub .thirtyTwoBit c ⟨[1, 0, 1], true⟩ = some ⟨[0, 0, 1], false⟩ ∧
    ∃ d, sub .thirtyTwoBit ⟨[0, 0, 1], false⟩ ⟨[1, 0, 1], true⟩ = some d ∧
      add .thirtyTwoBit d ⟨[1, 0, 1], true⟩ = some ⟨[0, 0, 1], false⟩ :=
  difference_of_sum (x := 18446744073709551616) (y := -18446744073709551617)
    ⟨by decide +kernel, by decide⟩ ⟨by decide +kernel, by decide⟩

/-! ## shifts -/

theorem base_split {w : WordSize} {k : Nat} (h : k ≤ w.bits2) : w.base = 2 ^ (w.bits2 - k) * 2 ^ k := by
  rw [← Nat.pow_add, Nat.sub_add_cancel h]
  rfl

/-- the words that are written, from the top on: the lowest one has room for what comes next -/
theorem lshiftTurn_eq {lb : Nat} (hlb : lb ≤ w.bits2) (l : List Nat) : Below w.base l →
    ∃ u t, l.foldr (lshiftTurn w lb) [0] = u :: t ∧ 2 ^ lb ∣ u ∧ Below w.base (u :: t) ∧
      ofDigits w.base (u :: t) = ofDigits w.base l * 2 ^ lb := by
  have h1 := w.one_lt_base
  induction l with
  | nil =>
    intro _
    exact ⟨0, [], rfl, Nat.dvd_zero _, Below.nil.cons (by omega), (Nat.zero_mul _).symm⟩
  | cons x l ih =>
    intro hb
    have hx := hb x List.mem_cons_self
    obtain ⟨u, t, he, ⟨v, rfl⟩, hbel, hval⟩ := ih hb.tail
    have hsplit := base_split hlb
    have hp := Nat.two_pow_pos lb
    have hhi : x / 2 ^ (w.bits2 - lb) < 2 ^ lb := Nat.div_lt_of_lt_mul (by rw [← hsplit]; exact hx)
    have hu := hbel _ List.mem_cons_self
    have hor : 2 ^ lb * v ||| x / 2 ^ (w.bits2 - lb) = 2 ^ lb * v + x / 2 ^ (w.bits2 - lb) :=
      (Nat.two_pow_add_eq_or_of_lt hhi v).symm
    have hsum : 2 ^ lb * v + x / 2 ^ (w.bits2 - lb) < w.base := by
      rw [hsplit, Nat.mul_comm (2 ^ (w.bits2 - lb))] at hu ⊢
      have hv : v < 2 ^ (w.bits2 - lb) := Nat.lt_of_mul_lt_mul_left hu
      calc 2 ^ lb * v + x / 2 ^ (w.bits2 - lb) < 2 ^ lb * v + 2 ^ lb := by omega
        _ = 2 ^ lb * (v + 1) := (Nat.mul_succ _ _).symm
        _ ≤ 2 ^ lb * 2 ^ (w.bits2 - lb) := Nat.mul_le_mul_left _ hv
    have hdiv : x * 2 ^ lb / w.base = x / 2 ^ (w.bits2 - lb) := by
      rw [hsplit, Nat.mul_div_mul_right _ _ hp]
    have hdm := Nat.mod_add_div (x * 2 ^ lb) w.base
    rw [hdiv] at hdm
    rw [List.foldr_cons, he]
    refine ⟨_, _, rfl, ?_, ?_, ?_⟩
    · rw [hsplit, Nat.mul_mod_mul_right]
      exact Nat.dvd_mul_left _ _
    · rw [hor]
      exact (hbel.tail.cons hsum).cons (Nat.mod_lt _ (by omega))
    · rw [hor, Nat.ofDigits_cons, Nat.ofDigits_cons, Nat.ofDigits_cons]
      rw [Nat.ofDigits_cons] at hval
      calc x * 2 ^ lb % w.base + w.base * (2 ^ lb * v + x / 2 ^ (w.bits2 - lb) + w.base * ofDigits w.base t)
          = x * 2 ^ lb % w.base + w.base * (x / 2 ^ (w.bits2 - lb)) +
              w.base * (2 ^ lb * v + w.base * ofDigits w.base t) := by ring
        _ = (x + w.base * ofDigits w.base l) * 2 ^ lb := by
          rw [hdm, hval]
          ring

theorem lshift_is (ha : Is w a x) (n : Nat) : Is w (lshift w a n) (x * 2 ^ n) := by
  have h1 := w.one_lt_base
  have hb2 : 0 < w.bits2 := by cases w <;> decide
  have habs : (x * 2 ^ n).natAbs = x.natAbs * 2 ^ n := by
    rw [Int.natAbs_mul, Int.natAbs_pow]
    rfl
  have hpow : 2 ^ n = w.base ^ (n / w.bits2) * 2 ^ (n % w.bits2) := by
    unfold WordSize.base
    rw [← Nat.pow_mul, ← Nat.pow_add, Nat.div_add_mod]
  -- the words above the zeros
  have ht : Below w.base (if n % w.bits2 = 0 then a.d ++ [0] else
      a.d.foldr (lshiftTurn w (n % w.bits2)) [0]) ∧
      ofDigits w.base (if n % w.bits2 = 0 then a.d ++ [0] else
        a.d.foldr (lshiftTurn w (n % w.bits2)) [0]) = x.natAbs * 2 ^ (n % w.bits2) := by
    split
    · next h0 =>
      rw [h0, Nat.pow_zero, Nat.mul_one, Nat.ofDigits_append_zero, ha.value]
      exact ⟨ha.below.append (Below.nil.cons (by omega)), rfl⟩
    · obtain ⟨u, t, he, -, hbel, hval⟩ := lshiftTurn_eq (Nat.le_of_lt (Nat.mod_lt n hb2)) a.d ha.below
      rw [he, hval, ha.value]
      exact ⟨hbel, rfl⟩
  have hz : Below w.base (List.replicate (n / w.bits2) 0) := fun y hy => by
    rw [List.eq_of_mem_replicate hy]
    omega
  refine ⟨?_, ?_⟩
  · show trim _ = _
    rw [trim_eq_digits h1 (hz.append ht.1), ofDigits_replicate_append, ht.2, habs, hpow]
    congr 1
    ring
  · show a.neg = _
    rw [ha.neg]
    have hp : (0 : Int) < 2 ^ n := by positivity
    congr 1
    exact propext ⟨fun h => Int.mul_neg_of_neg_of_pos h hp, fun h => by
      by_contra hc
      exact absurd (Int.mul_nonneg (Int.le_of_not_gt hc) (Int.le_of_lt hp)) (Int.not_le_of_gt h)⟩

theorem rshiftLoop_eq {rb : Nat} (hrb : rb ≤ w.bits2) (f : List Nat) : ∀ l, Below w.base (l :: f) →
    Below w.base (rshiftLoop w rb l f) ∧
    ofDigits w.base (rshiftLoop w rb l f) = ofDigits w.base (l :: f) / 2 ^ rb := by
  have hsplit := base_split hrb
  have hp := Nat.two_pow_pos rb
  induction f with
  | nil =>
    intro l hb
    have hl := hb l List.mem_cons_self
    unfold rshiftLoop
    rw [Nat.ofDigits_singleton, Nat.ofDigits_singleton]
    exact ⟨Below.nil.cons (Nat.lt_of_le_of_lt (Nat.div_le_self _ _) hl), rfl⟩
  | cons g f ih =>
    intro l hb
    have hl := hb l List.mem_cons_self
    have hbg : Below w.base (g :: f) := hb.tail
    obtain ⟨h2, h3⟩ := ih g hbg
    have hlow : l / 2 ^ rb < 2 ^ (w.bits2 - rb) := Nat.div_lt_of_lt_mul (by rw [Nat.mul_comm, ← hsplit]; exact hl)
    have hg : g * 2 ^ (w.bits2 - rb) % w.base = 2 ^ (w.bits2 - rb) * (g % 2 ^ rb) := by
      rw [hsplit, Nat.mul_comm g, Nat.mul_mod_mul_left]
    have hor : l / 2 ^ rb ||| g * 2 ^ (w.bits2 - rb) % w.base =
        2 ^ (w.bits2 - rb) * (g % 2 ^ rb) + l / 2 ^ rb := by
      rw [hg, Nat.or_comm, ← Nat.two_pow_add_eq_or_of_lt hlow]
    have hgm : g % 2 ^ rb = ofDigits w.base (g :: f) % 2 ^ rb := by
      rw [Nat.ofDigits_cons, hsplit, Nat.mul_comm _ (2 ^ rb), Nat.mul_assoc, Nat.add_mul_mod_self_left]
    have hcons : ofDigits w.base (l :: g :: f) = l + w.base * ofDigits w.base (g :: f) := Nat.ofDigits_cons
    unfold rshiftLoop
    rw [hor, Nat.ofDigits_cons, h3, hcons]
    refine ⟨h2.cons ?_, ?_⟩
    · have hm := Nat.mod_lt g hp
      calc 2 ^ (w.bits2 - rb) * (g % 2 ^ rb) + l / 2 ^ rb
          < 2 ^ (w.bits2 - rb) * (g % 2 ^ rb) + 2 ^ (w.bits2 - rb) := Nat.add_lt_add_left hlow _
        _ = 2 ^ (w.bits2 - rb) * (g % 2 ^ rb + 1) := (Nat.mul_succ _ _).symm
        _ ≤ 2 ^ (w.bits2 - rb) * 2 ^ rb := Nat.mul_le_mul_left _ hm
        _ = w.base := hsplit.symm
    · rw [hgm]
      generalize ofDigits w.base (g :: f) = v
      have hv := Nat.mod_add_div v (2 ^ rb)
      have hr : l + w.base * v = l + 2 ^ (w.bits2 - rb) * v * 2 ^ rb := by
        rw [hsplit]
        ring
      rw [hr, Nat.add_mul_div_right _ _ hp]
      conv_rhs => rw [← hv]
      rw [hsplit]
      ring

/-- also when there are zeros at the top -/
theorem rshift_below {d : List Nat} (hbel : Below w.base d) (k : Nat) :
    Is w (rshift w ⟨d, false⟩ k) (ofDigits w.base d / 2 ^ k : Nat) := by
  have h1 := w.one_lt_base
  have hb2 : 0 < w.bits2 := by cases w <;> decide
  have hpow : 2 ^ k = w.base ^ (k / w.bits2) * 2 ^ (k % w.bits2) := by
    unfold WordSize.base
    rw [← Nat.pow_mul, ← Nat.pow_add, Nat.div_add_mod]
  have hdiv : ofDigits w.base d / 2 ^ k = ofDigits w.base (d.drop (k / w.bits2)) / 2 ^ (k % w.bits2) := by
    rw [hpow, ← Nat.div_div_eq_div_mul, ofDigits_drop h1 hbel]
  rw [hdiv]
  unfold rshift
  dsimp only
  split
  · next hc =>
    have hle : d.length ≤ k / w.bits2 := by
      rcases hc with hc | hc
      · exact Nat.le_of_lt hc
      · rw [hc]
        exact Nat.zero_le _
    rw [List.drop_eq_nil_of_le hle, Nat.ofDigits_nil, Nat.zero_div]
    exact zero_is w
  · have hbd := hbel.drop (k / w.bits2)
    cases hf : d.drop (k / w.bits2) with
    | nil =>
      rw [Nat.ofDigits_nil, Nat.zero_div]
      exact zero_is w
    | cons l f =>
      rw [hf] at hbd
      dsimp only
      apply is_nat
      by_cases h0 : k % w.bits2 = 0
      · rw [if_pos h0, h0, Nat.pow_zero, Nat.div_one, trim_eq_digits h1 hbd]
      · obtain ⟨h2, h3⟩ := rshiftLoop_eq (Nat.le_of_lt (Nat.mod_lt k hb2)) f l hbd
        rw [if_neg h0, trim_eq_digits h1 h2, h3]

/-! ## bits -/

theorem numBits_eq (ha : Is w a x) : numBits w a = x.natAbs.size := by
  have h1 := w.one_lt_base
  unfold numBits
  rw [ha.d]
  generalize x.natAbs = n
  by_cases h0 : n = 0
  · rw [h0, Nat.digits_zero]
    rfl
  · have hne : digits w.base n ≠ [] := Nat.digits_ne_nil_iff_ne_zero.mpr h0
    have hlast := digits_top w n hne
    have hb := digits_below w n _ (List.getLast_mem hne)
    rw [List.getLast?_eq_some_getLast hne]
    dsimp only
    rw [numBitsWord_eq hb]
    -- the highest word, and what is below it
    have hd := List.dropLast_append_getLast hne
    have hval := congrArg (ofDigits w.base) hd
    have hlen : (digits w.base n).dropLast.length = (digits w.base n).length - 1 := List.length_dropLast
    have hlt := Below.lt h1 (l := (digits w.base n).dropLast) fun y hy =>
      digits_below w n y (List.dropLast_subset _ hy)
    rw [ofDigits_concat, Nat.ofDigits_digits, hlen] at hval
    rw [hlen] at hlt
    generalize (digits w.base n).getLast hne = t at hlast hval ⊢
    generalize (digits w.base n).length - 1 = k at hval hlt ⊢
    have hp : w.base ^ k = 2 ^ (k * w.bits2) := by
      unfold WordSize.base
      rw [← Nat.pow_mul, Nat.mul_comm]
    rw [hp] at hval hlt
    have hdiv : n / 2 ^ (k * w.bits2) = t := by
      rw [← hval, Nat.add_mul_div_left _ _ (Nat.two_pow_pos _), Nat.div_eq_of_lt hlt, Nat.zero_add]
    have hs := size_div (l := n) (k := k * w.bits2) (by rwa [hdiv])
    rw [hdiv] at hs
    omega

/-- the word in which a bit is -/
theorem getD_testBit (w : WordSize) (n i : Nat) :
    ((digits w.base n).getD (i / w.bits2) 0).testBit (i % w.bits2) = n.testBit i := by
  have hb2 : 0 < w.bits2 := by cases w <;> decide
  rw [Nat.getD_digits _ _ w.one_lt_base]
  have hp : w.base ^ (i / w.bits2) = 2 ^ (w.bits2 * (i / w.bits2)) := by
    unfold WordSize.base
    rw [← Nat.pow_mul]
  rw [hp]
  unfold WordSize.base
  rw [Nat.testBit_mod_two_pow, Nat.testBit_div_two_pow, decide_eq_true (Nat.mod_lt i hb2), Bool.true_and,
    Nat.add_comm, Nat.div_add_mod]

theorem isBitSet_eq (ha : Is w a n) (i : Nat) : isBitSet w a i = n.testBit i := by
  have hd : a.d = digits w.base n := ha.d
  unfold isBitSet
  rw [hd]
  split
  · next h =>
    rw [← getD_testBit w n i, List.getD_eq_default _ _ h, Nat.zero_testBit]
  · exact getD_testBit w n i

/-! ## bytes -/

theorem bytes_pos (w : WordSize) : 0 < w.bytes := by cases w <;> decide

theorem base_eq_bytes (w : WordSize) : w.base = 256 ^ w.bytes := by cases w <;> rfl

/-- what is read so far; `rest` bytes are still to come -/
structure Reads (w : WordSize) (p : List UInt8) (rest : Nat) (r : Reading) : Prop where
  words : Below w.base r.d
  phase : r.m = (rest + w.bytes - 1) % w.bytes
  word : r.l < 256 ^ (w.bytes - 1 - r.m)
  value : Bits.ofBytes p = ofDigits w.base r.d * 256 ^ (w.bytes - 1 - r.m) + r.l

theorem readByte_reads {p : List UInt8} {rest : Nat} {r : Reading} (h : Reads w p (rest + 1) r) (b : UInt8) :
    Reads w (p ++ [b]) rest (readByte w r b) := by
  have hb := b.toNat_lt
  have hk := bytes_pos w
  have hphase := h.phase
  have hword := h.word
  rw [show rest + 1 + w.bytes - 1 = rest + w.bytes by omega, Nat.add_mod_right] at hphase
  have hm : r.m < w.bytes := by
    rw [hphase]
    exact Nat.mod_lt _ hk
  have hpow : 256 ^ (w.bytes - 1 - r.m) * 256 = 256 ^ (w.bytes - r.m) := by
    rw [← Nat.pow_succ]
    congr 1
    omega
  have hle : 256 ^ (w.bytes - r.m) ≤ w.base := by
    rw [base_eq_bytes]
    exact Nat.pow_le_pow_right (by decide) (Nat.sub_le _ _)
  have hor : r.l * 256 % w.base ||| b.toNat = r.l * 256 + b.toNat := by
    rw [Nat.mod_eq_of_lt (by omega), Nat.mul_comm]
    exact (Nat.two_pow_add_eq_or_of_lt (i := 8) hb r.l).symm
  have hval : Bits.ofBytes (p ++ [b]) = ofDigits w.base r.d * 256 ^ (w.bytes - r.m) + (r.l * 256 + b.toNat) := by
    rw [Bits.ofBytes_snoc, h.value, ← hpow]
    ring
  have hlt : r.l * 256 + b.toNat < 256 ^ (w.bytes - r.m) := by omega
  unfold readByte
  dsimp only
  rw [hor]
  by_cases h0 : r.m = 0
  · rw [if_pos h0]
    rw [h0, Nat.sub_zero] at hval hlt
    rw [← base_eq_bytes] at hval hlt
    have hz : w.bytes - 1 - (w.bytes - 1) = 0 := Nat.sub_self _
    refine ⟨h.words.cons hlt, ?_, ?_, ?_⟩
    · dsimp only
      obtain ⟨k, hk'⟩ := Nat.dvd_of_mod_eq_zero (show rest % w.bytes = 0 by omega)
      rw [hk', show w.bytes * k + w.bytes - 1 = w.bytes - 1 + w.bytes * k by omega, Nat.add_mul_mod_self_left,
        Nat.mod_eq_of_lt (by omega)]
    · dsimp only
      rw [hz]
      decide
    · dsimp only
      rw [hz, hval, Nat.ofDigits_cons]
      ring
  · rw [if_neg h0]
    have he : w.bytes - 1 - (r.m - 1) = w.bytes - r.m := by omega
    refine ⟨h.words, ?_, ?_, ?_⟩
    · dsimp only
      have hd := Nat.div_add_mod rest w.bytes
      rw [← hphase] at hd
      rw [← hd, show w.bytes * (rest / w.bytes) + r.m + w.bytes - 1 =
        r.m - 1 + w.bytes * (rest / w.bytes + 1) by rw [Nat.mul_succ]; omega, Nat.add_mul_mod_self_left,
        Nat.mod_eq_of_lt (by omega)]
    · dsimp only
      rw [he]
      exact hlt
    · dsimp only
      rw [he]
      exact hval

theorem foldl_reads (s : List UInt8) : ∀ {p : List UInt8} {r : Reading}, Reads w p s.length r →
    Reads w (p ++ s) 0 (s.foldl (readByte w) r) := by
  induction s with
  | nil =>
    intro p r h
    rw [List.append_nil]
    exact h
  | cons b s ih =>
    intro p r h
    have := ih (readByte_reads h b)
    rwa [List.append_assoc] at this

theorem bin2bn_is (w : WordSize) (s : List UInt8) : Is w (bin2bn w s) (Bits.ofBytes s) := by
  unfold bin2bn
  split
  · next h =>
    rw [List.length_eq_zero_iff.mp h]
    exact zero_is w
  · next h =>
    have hk := bytes_pos w
    have hr := foldl_reads (p := []) s (r := ⟨0, (s.length - 1) % w.bytes, []⟩) ⟨Below.nil, by
      dsimp only
      rw [show s.length + w.bytes - 1 = s.length - 1 + w.bytes by omega, Nat.add_mod_right], by
      exact Nat.pow_pos (by decide), by
      show 0 = 0 * _ + 0
      rw [Nat.zero_mul]⟩
    generalize s.foldl (readByte w) ⟨0, (s.length - 1) % w.bytes, []⟩ = r at hr
    have hz : w.bytes - 1 - r.m = 0 := by
      rw [hr.phase, Nat.zero_add, Nat.mod_eq_of_lt (by omega), Nat.sub_self]
    have hl := hr.word
    have hv := hr.value
    rw [hz, Nat.pow_zero] at hl hv
    apply is_nat
    rw [trim_eq_digits w.one_lt_base hr.words]
    rw [List.nil_append] at hv
    congr 1
    omega

/-- the bytes of a number, in network order -/
theorem range_reverse_bytes (n : Nat) (k : Nat) :
    (List.range k).reverse.map (fun i => UInt8.ofNat (n / 256 ^ i)) = Bits.toBytes k n := by
  induction k generalizing n with
  | zero => rfl
  | succ k ih =>
    rw [List.range_succ_eq_map, List.reverse_cons, List.map_append, ← List.map_reverse, List.map_map]
    unfold Bits.toBytes
    rw [← ih (n / 256)]
    congr 1
    · apply List.map_congr_left
      intro i _
      show UInt8.ofNat (n / 256 ^ (i + 1)) = _
      rw [Nat.pow_succ', Nat.div_div_eq_div_mul]
    · show [UInt8.ofNat (n / 1)] = _
      rw [Nat.div_one]

theorem bn2bin_eq (ha : Is w a n) : bn2bin w a = Bits.toBytes ((n.size + 7) / 8) n := by
  have hk := bytes_pos w
  have hd : a.d = digits w.base n := ha.d
  unfold bn2bin numBytes
  rw [numBits_eq ha, ← range_reverse_bytes]
  apply List.map_congr_left
  intro i _
  have hp : (2 : Nat) ^ (8 * (i % w.bytes)) = 256 ^ (i % w.bytes) := by
    rw [Nat.pow_mul]
  have hsplit : (256 : Nat) ^ i = w.base ^ (i / w.bytes) * 256 ^ (i % w.bytes) := by
    rw [base_eq_bytes, ← Nat.pow_mul, ← Nat.pow_add, Nat.div_add_mod]
  rw [hd, Nat.getD_digits _ _ w.one_lt_base, hp, hsplit, ← Nat.div_div_eq_div_mul]
  generalize n / w.base ^ (i / w.bytes) = v
  apply UInt8.toNat_inj.mp
  rw [UInt8.toNat_ofNat', UInt8.toNat_ofNat']
  -- the byte is inside the word
  obtain ⟨e, he⟩ : ∃ e, w.bytes = i % w.bytes + (e + 1) := ⟨w.bytes - i % w.bytes - 1, by
    have := Nat.mod_lt i hk
    omega⟩
  have hb : w.base = 256 ^ (i % w.bytes) * (256 * 256 ^ e) := by
    rw [base_eq_bytes, ← Nat.pow_succ', ← Nat.pow_add, ← he]
  rw [hb, Nat.mod_mul_right_div_self]
  exact Nat.mod_mul_right_mod _ _ _

end BigNum
