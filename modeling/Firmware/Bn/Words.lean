import Mathlib.Data.Nat.Size
import Firmware.Lib.Limbs

/-!
# tinysrp: the words of a number

`bn_asm.c` and the macros of `bn_lcl.h` as they are compiled without `BN_LLONG` and
`BN_UMULT_HIGH`: a word is multiplied in halves.  A `BN_ULONG` is a number below `w.base`; the loops
that the source writes out four words at a time are `Limbs.chain`.

* `mul64`, `mul`, `mulAdd`, `sqr64`     the macros, and what they compute;
* `addWords`, `mulWords`, `mulAddWords`, `sqrWords`;
* `divWords`                            two words by one, half a word at a time;
* `divWords_eq`                         it is the quotient.
-/

set_option linter.unusedVariables false

namespace Bn
open Nat (ofDigits)
open Limbs

/-- `THIRTY_TWO_BIT` and `SIXTY_FOUR_BIT_LONG` -/
inductive WordSize where
  | thirtyTwoBit
  | sixtyFourBit
deriving DecidableEq

/-- `BN_BITS4` -/
def WordSize.bits4 : WordSize → Nat
  | .thirtyTwoBit => 16
  | .sixtyFourBit => 32

/-- `BN_BITS2` -/
def WordSize.bits2 (w : WordSize) : Nat := 2 * w.bits4

/-- `BN_MASK2l + 1` -/
def WordSize.half (w : WordSize) : Nat := 2 ^ w.bits4

/-- `BN_MASK2 + 1` -/
def WordSize.base (w : WordSize) : Nat := 2 ^ w.bits2

/-- `BN_BYTES` -/
def WordSize.bytes (w : WordSize) : Nat := w.bits4 / 4

theorem WordSize.sizes (w : WordSize) : w.half = 65536 ∧ w.base = 4294967296 ∨
    w.half = 4294967296 ∧ w.base = 18446744073709551616 := by
  cases w with
  | thirtyTwoBit => exact Or.inl ⟨rfl, rfl⟩
  | sixtyFourBit => exact Or.inr ⟨rfl, rfl⟩

theorem WordSize.half_mul (w : WordSize) : w.half * w.half = w.base := by
  obtain ⟨hh, hb⟩ | ⟨hh, hb⟩ := w.sizes <;> rw [hh, hb]

theorem WordSize.one_lt_base (w : WordSize) : 1 < w.base := by
  obtain ⟨-, hb⟩ | ⟨-, hb⟩ := w.sizes <;> omega

/-! ## the macros -/

section
variable (w : WordSize)

def lbits (a : Nat) : Nat := a % w.half
def hbits (a : Nat) : Nat := a / w.half % w.half
def l2hbits (a : Nat) : Nat := a % w.half * w.half

/-- `mul64`: the new `l` and `h` -/
def mul64 (l h bl bh : Nat) : Nat × Nat :=
  let m := bh * l % w.base
  let lt := bl * l % w.base
  let m1 := bl * h % w.base
  let ht := bh * h % w.base
  let m := (m + m1) % w.base
  let ht := if m < m1 then (ht + l2hbits w 1) % w.base else ht
  let ht := (ht + hbits w m) % w.base
  let m1 := l2hbits w m
  let lt := (lt + m1) % w.base
  let ht := if lt < m1 then (ht + 1) % w.base else ht
  (lt, ht)

/-- `mul`: the new `r` and `c` -/
def mul (bl bh a c : Nat) : Nat × Nat :=
  let s := mul64 w (lbits w a) (hbits w a) bl bh
  let l := (s.1 + c) % w.base
  let h := if l < c then (s.2 + 1) % w.base else s.2
  (l, h)

/-- `mul_add`, with the old `r` -/
def mulAdd (bl bh a r c : Nat) : Nat × Nat :=
  let s := mul64 w (lbits w a) (hbits w a) bl bh
  let l := (s.1 + c) % w.base
  let h := if l < c then (s.2 + 1) % w.base else s.2
  let c := r
  let l := (l + c) % w.base
  let h := if l < c then (h + 1) % w.base else h
  (l, h)

/-- `sqr64`: `lo` and `ho` -/
def sqr64 (a : Nat) : Nat × Nat :=
  let l := lbits w a
  let h := hbits w a
  let m := l * h % w.base
  let l := l * l % w.base
  let h := h * h % w.base
  let h := (h + m / (w.half / 2)) % w.base
  let m := m % w.half * (2 * w.half) % w.base
  let l := (l + m) % w.base
  let h := if l < m then (h + 1) % w.base else h
  (l, h)

/-! ## the loops -/

/-- one turn of `bn_add_words` -/
def addTurn (x : Nat × Nat) (c : Nat) : Nat × Nat :=
  let t := (x.1 + c) % w.base
  let c := if t < c then 1 else 0
  let l := (t + x.2) % w.base
  (l, c + if l < t then 1 else 0)

/-- `r` and the carry, of two numbers of one length -/
def addWords (a b : List Nat) : List Nat × Nat := chain (addTurn w) (a.zip b) 0

def mulWords (ap : List Nat) (x : Nat) : List Nat × Nat :=
  chain (mul w (lbits w x) (hbits w x)) ap 0

/-- `rp` is as long as `ap` -/
def mulAddWords (rp ap : List Nat) (x : Nat) : List Nat × Nat :=
  chain (fun p => mulAdd w (lbits w x) (hbits w x) p.1 p.2) (ap.zip rp) 0

def sqrWords (a : List Nat) : List Nat := a.flatMap fun x => [(sqr64 w x).1, (sqr64 w x).2]

/-! ## bits and quotients -/

/-- `bits[256]` -/
def bits : List Nat :=
  [0, 1] ++ List.replicate 2 2 ++ List.replicate 4 3 ++ List.replicate 8 4 ++ List.replicate 16 5 ++
    List.replicate 32 6 ++ List.replicate 64 7 ++ List.replicate 128 8

/-- the part of `BN_num_bits_word` that all word sizes have -/
def numBitsLow (l : Nat) : Nat :=
  if l / 2 ^ 16 ≠ 0 then
    if l / 2 ^ 24 ≠ 0 then bits.getD (l / 2 ^ 24) 0 + 24 else bits.getD (l / 2 ^ 16) 0 + 16
  else if l / 2 ^ 8 ≠ 0 then bits.getD (l / 2 ^ 8) 0 + 8
  else bits.getD l 0

def numBitsWord (l : Nat) : Nat :=
  match w with
  | .thirtyTwoBit => numBitsLow l
  | .sixtyFourBit =>
    if l / 2 ^ 32 ≠ 0 then
      if l / 2 ^ 48 ≠ 0 then
        if l / 2 ^ 56 ≠ 0 then bits.getD (l / 2 ^ 56) 0 + 56 else bits.getD (l / 2 ^ 48) 0 + 48
      else if l / 2 ^ 40 ≠ 0 then bits.getD (l / 2 ^ 40) 0 + 40
      else bits.getD (l / 2 ^ 32) 0 + 32
    else numBitsLow l

/-- `q`, `th` and `tl` -/
structure Estimate where
  q : Nat
  th : Nat
  tl : Nat

/-- the inner loop of `bn_div_words` -/
def divFix (h l dh dl : Nat) : Nat → Estimate → Estimate
  | 0, e => e
  | fuel + 1, e =>
    let t := (h + w.base - e.th) % w.base
    if w.half ≤ t ∨ e.tl ≤ (t * w.half % w.base ||| l / w.half) then e
    else divFix h l dh dl fuel ⟨(e.q + w.base - 1) % w.base, (e.th + w.base - dh) % w.base,
      (e.tl + w.base - dl) % w.base⟩

/-- `q`, and the new `h` and `l` -/
structure Turned where
  q : Nat
  h : Nat
  l : Nat

/-- one of the two turns of the outer loop, up to `--count` -/
def divTurn (d h l : Nat) : Turned :=
  let dh := d / w.half
  let dl := d % w.half
  let q := if h / w.half = dh then w.half - 1 else h / dh
  let e := divFix w h l dh dl (q + 1) ⟨q, q * dh % w.base, dl * q % w.base⟩
  let t := e.tl / w.half
  let tl := e.tl * w.half % w.base
  let th := (e.th + t) % w.base
  let th := if l < tl then (th + 1) % w.base else th
  let l := (l + w.base - tl) % w.base
  let s := if h < th then ((e.q + w.base - 1) % w.base, (h + d) % w.base) else (e.q, h)
  ⟨s.1, (s.2 + w.base - th) % w.base, l⟩

def divWords (h l d : Nat) : Nat :=
  if d = 0 then w.base - 1
  else
    let i := w.bits2 - numBitsWord w d
    let h := if h ≥ d then h - d else h
    let s : Nat × Nat × Nat :=
      if i ≠ 0 then
        (d * 2 ^ i % w.base, h * 2 ^ i % w.base ||| l / 2 ^ (w.bits2 - i), l * 2 ^ i % w.base)
      else (d, h, l)
    let r := divTurn w s.1 s.2.1 s.2.2
    let ret := r.q * w.half % w.base
    let h := r.h * w.half % w.base ||| r.l / w.half
    let l := r.l % w.half * w.half
    ret ||| (divTurn w s.1 h l).q

end

/-! ## what the macros compute -/

variable {w : WordSize}

theorem lbits_lt (w : WordSize) (a : Nat) : lbits w a < w.half := Nat.mod_lt _ (by
  unfold WordSize.half
  positivity)

theorem hbits_lt (w : WordSize) (a : Nat) : hbits w a < w.half := Nat.mod_lt _ (by
  unfold WordSize.half
  positivity)

theorem bits_eq {a : Nat} (h : a < w.base) : lbits w a + w.half * hbits w a = a := by
  unfold lbits hbits
  rw [← w.half_mul] at h
  rw [Nat.mod_eq_of_lt (Nat.div_lt_of_lt_mul h)]
  exact Nat.mod_add_div a w.half

/-- two halves, multiplied -/
theorem half_mul_le {a b : Nat} (ha : a < w.half) (hb : b < w.half) :
    a * b ≤ (w.half - 1) * (w.half - 1) :=
  Nat.mul_le_mul (by omega) (by omega)

theorem mul64_eq {l h bl bh : Nat} (hl : l < w.half) (hh : h < w.half) (hbl : bl < w.half)
    (hbh : bh < w.half) : (mul64 w l h bl bh).1 < w.base ∧
    (mul64 w l h bl bh).1 + w.base * (mul64 w l h bl bh).2 =
      (l + w.half * h) * (bl + w.half * bh) := by
  have hr : (l + w.half * h) * (bl + w.half * bh) =
      bl * l + w.half * (bh * l + bl * h) + w.base * (bh * h) := by
    rw [← w.half_mul]
    ring
  have h1 := half_mul_le hbh hl
  have h2 := half_mul_le hbl hl
  have h3 := half_mul_le hbl hh
  have h4 := half_mul_le hbh hh
  rw [hr]
  unfold mul64 l2hbits hbits
  dsimp only
  generalize bh * l = p at *
  generalize bl * l = q at *
  generalize bl * h = r at *
  generalize bh * h = s at *
  clear hr hl hh hbl hbh
  obtain ⟨hh, hb⟩ | ⟨hh, hb⟩ := w.sizes
  all_goals
    rw [hh] at h1 h2 h3 h4
    rw [hh, hb]
    rw [Nat.mod_eq_of_lt (show p < _ by omega), Nat.mod_eq_of_lt (show q < _ by omega),
      Nat.mod_eq_of_lt (show r < _ by omega), Nat.mod_eq_of_lt (show s < _ by omega)]
    split <;> split <;> omega

/-- a product with a carry fits two words -/
theorem mul_add_lt {a x c d : Nat} (ha : a < w.base) (hx : x < w.base) (hc : c < w.base)
    (hd : d < w.base) : a * x + c + d < w.base * w.base := by
  have h : a * x ≤ (w.base - 1) * (w.base - 1) := Nat.mul_le_mul (by omega) (by omega)
  have h1 := w.one_lt_base
  generalize w.base = b at *
  obtain ⟨k, rfl⟩ : ∃ k, b = k + 1 := ⟨b - 1, by omega⟩
  rw [Nat.add_sub_cancel] at h
  calc a * x + c + d ≤ k * k + k + k := by omega
    _ < (k + 1) * (k + 1) := by
      rw [Nat.add_mul, Nat.mul_add]
      omega

/-- the upper word of a number of two words -/
theorem upper_lt {l h n b : Nat} (hn : l + b * h = n) (hlt : n < b * b) : h < b := by
  by_contra hh
  have := Nat.mul_le_mul_left b (Nat.le_of_not_lt hh)
  omega

/-- a word is added to a number of two words -/
theorem add_word {l h c b : Nat} (hl : l < b) (hc : c < b) (hlt : l + b * h + c < b * b) :
    (l + c) % b < b ∧ (l + c) % b + b * (if (l + c) % b < c then (h + 1) % b else h) = l + b * h + c := by
  refine ⟨Nat.mod_lt _ (by omega), ?_⟩
  by_cases hs : l + c < b
  · rw [Nat.mod_eq_of_lt hs, if_neg (by omega)]
    omega
  · have hm : (l + c) % b = l + c - b := by
      rw [Nat.mod_eq_sub_mod (by omega), Nat.mod_eq_of_lt (by omega)]
    have hh : h + 1 < b := by
      by_contra hh
      have h1 := Nat.mul_le_mul_left b (Nat.le_of_not_lt hh)
      rw [Nat.mul_succ] at h1
      omega
    rw [hm, if_pos (by omega), Nat.mod_eq_of_lt hh, Nat.mul_succ]
    omega

/-- the halves of a word, multiplied with those of another -/
theorem mul64_words {a x : Nat} (ha : a < w.base) (hx : x < w.base) :
    (mul64 w (lbits w a) (hbits w a) (lbits w x) (hbits w x)).1 < w.base ∧
    (mul64 w (lbits w a) (hbits w a) (lbits w x) (hbits w x)).1 +
      w.base * (mul64 w (lbits w a) (hbits w a) (lbits w x) (hbits w x)).2 = a * x := by
  have h := mul64_eq (lbits_lt w a) (hbits_lt w a) (lbits_lt w x) (hbits_lt w x)
  rwa [bits_eq ha, bits_eq hx] at h

theorem mul_turn {x a c : Nat} (hx : x < w.base) (ha : a < w.base) (hc : c < w.base) :
    Turn w.base (mul w (lbits w x) (hbits w x)) (· * x) (· < w.base) a c := by
  obtain ⟨h1, h2⟩ := mul64_words ha hx
  have hlt := mul_add_lt (c := c) (d := 0) ha hx hc (by omega)
  obtain ⟨h3, h4⟩ := add_word h1 hc (by rw [h2]; omega)
  rw [h2] at h4
  exact ⟨h3, h4, upper_lt h4 hlt⟩

theorem mulAdd_turn {x a r c : Nat} (hx : x < w.base) (ha : a < w.base) (hr : r < w.base)
    (hc : c < w.base) : Turn w.base (fun p => mulAdd w (lbits w x) (hbits w x) p.1 p.2)
      (fun p => p.1 * x + p.2) (· < w.base) (a, r) c := by
  obtain ⟨h1, h2⟩ := mul64_words ha hx
  have hlt := mul_add_lt ha hx hc hr
  obtain ⟨h3, h4⟩ := add_word h1 hc (by rw [h2]; omega)
  obtain ⟨h5, h6⟩ := add_word h3 hr (by rw [h4, h2]; omega)
  rw [h4, h2] at h6
  refine ⟨h5, ?_, upper_lt h6 hlt⟩
  show _ = a * x + r + c
  rw [Nat.add_right_comm]
  exact h6

theorem addTurn_turn {x y c : Nat} (hx : x < w.base) (hy : y < w.base) (hc : c ≤ 1) :
    Turn w.base (addTurn w) (fun p => p.1 + p.2) (· ≤ 1) (x, y) c := by
  have h1 := w.one_lt_base
  unfold addTurn
  refine ⟨?_, ?_, ?_⟩ <;> dsimp only <;> generalize w.base = b at *
  · exact Nat.mod_lt _ (by omega)
  · by_cases hs : x + c < b
    · rw [Nat.mod_eq_of_lt hs, if_neg (by omega), Nat.zero_add]
      by_cases ht : x + c + y < b
      · rw [Nat.mod_eq_of_lt ht, if_neg (by omega)]
        omega
      · rw [Nat.mod_eq_sub_mod (by omega), Nat.mod_eq_of_lt (show x + c + y - b < b by omega),
          if_pos (by omega)]
        omega
    · have hz : x + c = b := by omega
      rw [hz, Nat.mod_self, if_pos (by omega), Nat.zero_add, Nat.mod_eq_of_lt hy, if_neg (by omega)]
      omega
  · by_cases hs : x + c < b
    · rw [Nat.mod_eq_of_lt hs, if_neg (by omega), Nat.zero_add]
      split <;> omega
    · have hz : x + c = b := by omega
      rw [hz, Nat.mod_self, if_pos (by omega), Nat.zero_add, Nat.mod_eq_of_lt hy, if_neg (by omega)]

theorem sqr64_eq {a : Nat} (ha : a < w.base) : (sqr64 w a).1 < w.base ∧ (sqr64 w a).2 < w.base ∧
    (sqr64 w a).1 + w.base * (sqr64 w a).2 = a * a := by
  have hl := lbits_lt w a
  have hh := hbits_lt w a
  have hr : a * a = lbits w a * lbits w a + w.half * (2 * (lbits w a * hbits w a)) +
      w.base * (hbits w a * hbits w a) := by
    conv_lhs => rw [← bits_eq ha]
    rw [← w.half_mul]
    ring
  have h1 := half_mul_le hl hh
  have h2 := half_mul_le hl hl
  have h3 := half_mul_le hh hh
  have hlt : a * a < w.base * w.base := Nat.mul_self_lt_mul_self ha
  rw [hr] at hlt ⊢
  unfold sqr64
  dsimp only
  generalize lbits w a * hbits w a = p at *
  generalize lbits w a * lbits w a = q at *
  generalize hbits w a * hbits w a = s at *
  clear hr hl hh ha
  obtain ⟨hh, hb⟩ | ⟨hh, hb⟩ := w.sizes
  all_goals
    rw [hh] at h1 h2 h3
    rw [hb, hh] at hlt
    rw [hh, hb]
    rw [Nat.mod_eq_of_lt (show p < _ by omega), Nat.mod_eq_of_lt (show q < _ by omega),
      Nat.mod_eq_of_lt (show s < _ by omega)]
    split
    all_goals
      refine ⟨?_, ?_, ?_⟩
      all_goals omega

/-! ## what the loops compute -/

variable {a b : List Nat} {x : Nat}

theorem ofDigits_map_mul (b : Nat) (l : List Nat) (x : Nat) :
    ofDigits b (l.map (· * x)) = ofDigits b l * x := by
  induction l with
  | nil => exact (Nat.zero_mul x).symm
  | cons y l ih =>
    rw [List.map_cons, Nat.ofDigits_cons, ih, Nat.ofDigits_cons]
    ring

theorem ofDigits_zip_add (b : Nat) (l : List Nat) (x : Nat) : ∀ k : List Nat, l.length = k.length →
    ofDigits b ((l.zip k).map fun p => p.1 * x + p.2) = ofDigits b l * x + ofDigits b k := by
  induction l with
  | nil =>
    intro k hk
    rw [List.length_eq_zero_iff.mp hk.symm]
    show 0 = 0 * x + 0
    omega
  | cons y l ih =>
    intro k hk
    cases k with
    | nil => exact absurd hk (Nat.succ_ne_zero _)
    | cons z k =>
      rw [List.zip_cons_cons, List.map_cons, Nat.ofDigits_cons, ih k (Nat.succ_inj.mp hk), Nat.ofDigits_cons,
        Nat.ofDigits_cons]
      ring

/-- a number of words, and the word above them -/
structure Carried (w : WordSize) (r : List Nat × Nat) (len n : Nat) : Prop where
  below : Below w.base r.1
  length : r.1.length = len
  carry : r.2 < w.base
  value : ofDigits w.base r.1 + w.base ^ len * r.2 = n

theorem mem_zip_below {l k : List Nat} {m : Nat} (hl : Below m l) (hk : Below m k) {p : Nat × Nat}
    (hp : p ∈ l.zip k) : p.1 < m ∧ p.2 < m :=
  ⟨hl _ (List.of_mem_zip hp).1, hk _ (List.of_mem_zip hp).2⟩

theorem mulWords_eq (ha : Below w.base a) (hx : x < w.base) :
    Carried w (mulWords w a x) a.length (ofDigits w.base a * x) := by
  have h1 := w.one_lt_base
  obtain ⟨h2, h3, h4⟩ := chain_spec (C := (· < w.base)) a (fun y hy c hc => mul_turn hx (ha y hy) hc) 0 (by omega)
  rw [ofDigits_map_mul, Nat.add_zero] at h3
  exact ⟨h2, chain_length _ _ _, h4, h3⟩

theorem mulAddWords_eq {rp : List Nat} (ha : Below w.base a) (hr : Below w.base rp)
    (hl : a.length = rp.length) (hx : x < w.base) :
    Carried w (mulAddWords w rp a x) a.length (ofDigits w.base a * x + ofDigits w.base rp) := by
  have h1 := w.one_lt_base
  obtain ⟨h2, h3, h4⟩ := chain_spec (C := (· < w.base)) (a.zip rp) (fun p hp c hc =>
    mulAdd_turn hx (mem_zip_below ha hr hp).1 (mem_zip_below ha hr hp).2 hc) 0 (by omega)
  have hz : (a.zip rp).length = a.length := by
    rw [List.length_zip, hl, Nat.min_self]
  rw [ofDigits_zip_add _ _ _ _ hl, Nat.add_zero, hz] at h3
  exact ⟨h2, (chain_length _ _ _).trans hz, h4, h3⟩

theorem addWords_eq (ha : Below w.base a) (hb : Below w.base b) (hl : a.length = b.length) :
    Carried w (addWords w a b) a.length (ofDigits w.base a + ofDigits w.base b) ∧ (addWords w a b).2 ≤ 1 := by
  have h1 := w.one_lt_base
  obtain ⟨h2, h3, h4⟩ := chain_spec (C := (· ≤ 1)) (a.zip b) (fun p hp c hc =>
    addTurn_turn (mem_zip_below ha hb hp).1 (mem_zip_below ha hb hp).2 hc) 0 (by omega)
  have hz : (a.zip b).length = a.length := by
    rw [List.length_zip, hl, Nat.min_self]
  have hsum : (a.zip b).map (fun p => p.1 + p.2) = (a.zip b).map fun p => p.1 * 1 + p.2 := by
    simp only [Nat.mul_one]
  rw [hsum, ofDigits_zip_add _ _ _ _ hl, Nat.mul_one, Nat.add_zero, hz] at h3
  exact ⟨⟨h2, (chain_length _ _ _).trans hz, show _ < _ by unfold addWords; omega, h3⟩, h4⟩

theorem sqrWords_length (w : WordSize) (a : List Nat) : (sqrWords w a).length = 2 * a.length := by
  unfold sqrWords
  induction a with
  | nil => rfl
  | cons y a ih =>
    rw [List.flatMap_cons, List.length_append, ih]
    show 2 + 2 * a.length = 2 * (a.length + 1)
    omega

theorem sqrWords_below (ha : Below w.base a) : Below w.base (sqrWords w a) := by
  intro y hy
  obtain ⟨z, hz, hy⟩ := List.mem_flatMap.mp hy
  obtain ⟨h1, h2, -⟩ := sqr64_eq (ha z hz)
  rcases List.mem_cons.mp hy with rfl | hy
  · exact h1
  · rw [List.mem_singleton.mp hy]
    exact h2

/-! ## the quotient -/

theorem bits_getD {l : Nat} (h : l < 256) : bits.getD l 0 = l.size := by
  have : ∀ i : Fin 256, bits.getD i 0 = (i : Nat).size := by decide +kernel
  exact this ⟨l, h⟩

/-- the bits above the lowest `k`, if there are any -/
theorem size_div {l k : Nat} (h : l / 2 ^ k ≠ 0) : (l / 2 ^ k).size + k = l.size := by
  have hp : 0 < 2 ^ k := Nat.two_pow_pos k
  have h0 : 0 < (l / 2 ^ k).size := Nat.size_pos.mpr (Nat.pos_of_ne_zero h)
  -- the highest bit of the quotient is that of the number, `k` bits further up
  have h1 : l < 2 ^ ((l / 2 ^ k).size + k) := by
    rw [Nat.pow_add]
    exact (Nat.div_lt_iff_lt_mul hp).mp (Nat.size_le.mp (Nat.le_refl _))
  have h2 : 2 ^ ((l / 2 ^ k).size - 1 + k) ≤ l := by
    rw [Nat.pow_add]
    exact (Nat.le_div_iff_mul_le hp).mp (Nat.lt_size.mp (by omega))
  have h3 := Nat.size_le.mpr h1
  have h4 := Nat.lt_size.mpr h2
  omega

theorem numBitsLow_eq {l : Nat} (h : l < 2 ^ 32) : numBitsLow l = l.size := by
  unfold numBitsLow
  split
  · next h16 =>
    split
    · next h24 =>
      rw [bits_getD (by omega)]
      exact size_div h24
    · next h24 =>
      rw [bits_getD (by omega)]
      exact size_div h16
  · next h16 =>
    split
    · next h8 =>
      rw [bits_getD (by omega)]
      exact size_div h8
    · exact bits_getD (by omega)

theorem numBitsWord_eq {l : Nat} (h : l < w.base) : numBitsWord w l = l.size := by
  unfold numBitsWord
  cases w with
  | thirtyTwoBit => exact numBitsLow_eq h
  | sixtyFourBit =>
    have h : l < 2 ^ 64 := h
    dsimp only
    split
    · next h32 =>
      split
      · next h48 =>
        split
        · next h56 =>
          rw [bits_getD (by omega)]
          exact size_div h56
        · next h56 =>
          rw [bits_getD (by omega)]
          exact size_div h48
      · next h48 =>
        split
        · next h40 =>
          rw [bits_getD (by omega)]
          exact size_div h40
        · next h40 =>
          rw [bits_getD (by omega)]
          exact size_div h32
    · exact numBitsLow_eq (by omega)

/-- halves side by side -/
theorem half_or (w : WordSize) (t : Nat) {c : Nat} (hc : c < w.half) : t * w.half ||| c = t * w.half + c := by
  unfold WordSize.half at hc ⊢
  rw [Nat.mul_comm, Nat.two_pow_add_eq_or_of_lt hc]

section
variable {h l d : Nat}

/-- the first `q` is not too small; the loop stops at the quotient -/
theorem divFix_eq (hh : h < w.base) (hl : l < w.base) (hd : d < w.base) (fuel : Nat) : ∀ q : Nat,
    q < fuel → q < w.half → q * (d / w.half) ≤ h → h * w.half + l / w.half < (q + 1) * d →
    ∃ q', q' * d ≤ h * w.half + l / w.half ∧ h * w.half + l / w.half < (q' + 1) * d ∧
      divFix w h l (d / w.half) (d % w.half) fuel ⟨q, q * (d / w.half), d % w.half * q⟩ =
        ⟨q', q' * (d / w.half), d % w.half * q'⟩ := by
  have hhb := w.half_mul
  have h0 : 0 < w.half := by
    unfold WordSize.half
    positivity
  have hdl := Nat.mod_lt d h0
  have hdq : d / w.half * w.half + d % w.half = d := Nat.div_add_mod' d w.half
  have hdh : d / w.half < w.half := Nat.div_lt_of_lt_mul (by rw [hhb]; exact hd)
  have hlh : l / w.half < w.half := Nat.div_lt_of_lt_mul (by rw [hhb]; exact hl)
  generalize d / w.half = dh at *
  generalize d % w.half = dl at *
  generalize hlm : l / w.half = lh at *
  generalize hx : h * w.half + lh = x
  induction fuel with
  | zero =>
    intro q hq
    omega
  | succ fuel ih =>
    intro q hq hqh hP hnot
    have hR : dl * q ≤ (w.half - 1) * (w.half - 1) := half_mul_le hdl hqh
    have hprod : q * d = q * dh * w.half + dl * q := by
      rw [← hdq]
      ring
    have ht : (h + w.base - q * dh) % w.base = h - q * dh := by
      rw [show h + w.base - q * dh = h - q * dh + w.base by omega, Nat.add_mod_right,
        Nat.mod_eq_of_lt (by omega)]
    have hsub : (h - q * dh) * w.half = h * w.half - q * dh * w.half := Nat.sub_mul _ _ _
    have hle : q * dh * w.half ≤ h * w.half := Nat.mul_le_mul_right _ hP
    have hRb : dl * q < w.half * w.half := by
      have := Nat.mul_lt_mul'' hdl hqh
      exact this
    unfold divFix
    dsimp only
    rw [ht, hlm]
    -- the test is that of the whole product
    have htest : (w.half ≤ h - q * dh ∨ dl * q ≤ ((h - q * dh) * w.half % w.base ||| lh)) ↔ q * d ≤ x := by
      by_cases hbig : w.half ≤ h - q * dh
      · refine iff_of_true (Or.inl hbig) ?_
        have := Nat.mul_le_mul_right w.half hbig
        omega
      · have hs : (h - q * dh) * w.half < w.base := by
          rw [← hhb]
          exact Nat.mul_lt_mul_of_pos_right (by omega) h0
        rw [Nat.mod_eq_of_lt hs, half_or w _ hlh, or_iff_right hbig, hprod]
        omega
    by_cases hle' : q * d ≤ x
    · rw [if_pos (htest.mpr hle')]
      exact ⟨q, hle', hnot, rfl⟩
    · rw [if_neg fun hc => hle' (htest.mp hc)]
      obtain ⟨p, rfl⟩ : ∃ p, q = p + 1 := by
        refine ⟨q - 1, ?_⟩
        rcases Nat.eq_zero_or_pos q with h0 | h0
        · rw [h0, Nat.zero_mul] at hle'
          omega
        · omega
      have e1 : (p + 1 + w.base - 1) % w.base = p := by
        rw [show p + 1 + w.base - 1 = p + w.base by omega, Nat.add_mod_right, Nat.mod_eq_of_lt]
        have := Nat.le_mul_of_pos_left w.half h0
        omega
      have e2 : ((p + 1) * dh + w.base - dh) % w.base = p * dh := by
        rw [Nat.succ_mul] at hP ⊢
        rw [show p * dh + dh + w.base - dh = p * dh + w.base by omega, Nat.add_mod_right,
          Nat.mod_eq_of_lt (by omega)]
      have e3 : (dl * (p + 1) + w.base - dl) % w.base = dl * p := by
        rw [Nat.mul_succ] at hRb ⊢
        rw [show dl * p + dl + w.base - dl = dl * p + w.base by omega, Nat.add_mod_right,
          Nat.mod_eq_of_lt (by omega)]
      rw [e1, e2, e3]
      rw [Nat.succ_mul] at hP
      exact ih p (by omega) (by omega) (by omega) (by omega)

/-- the multiple is taken off two words; `p` and `r` are its halves, `m` is what is left of the upper three -/
theorem take_off {p r m th : Nat} (hh : h < w.base) (hl : l < w.base) (hr : r < w.base) (hm : m < w.base)
    (hsum : h * w.half + l / w.half = p * w.half + r + m)
    (hth : (if l < r * w.half % w.base then ((p + r / w.half) % w.base + 1) % w.base
      else (p + r / w.half) % w.base) = th) :
    ¬ h < th ∧ (h + w.base - th) % w.base = m / w.half ∧
    (l + w.base - r * w.half % w.base) % w.base = m % w.half * w.half + l % w.half := by
  obtain ⟨hs, hb⟩ | ⟨hs, hb⟩ := w.sizes
  all_goals
    rw [hb] at hh hl hr hm
    rw [hs] at hsum
    rw [hs, hb] at hth
    rw [hs, hb]
    refine ⟨?_, ?_, ?_⟩
    all_goals
      split at hth
      all_goals omega

/-- half a word of the quotient, and what is left -/
theorem divTurn_eq (hd : d < w.base) (hl : l < w.base) (hh : h < d) (hn : 0 < d / w.half) : divTurn w d h l =
    ⟨(h * w.half + l / w.half) / d, (h * w.half + l / w.half) % d / w.half,
      (h * w.half + l / w.half) % d % w.half * w.half + l % w.half⟩ := by
  have hhb := w.half_mul
  have h0 : 0 < w.half := by
    unfold WordSize.half
    positivity
  have hlh : l / w.half < w.half := Nat.div_lt_of_lt_mul (by rw [hhb]; exact hl)
  have hdq := Nat.div_add_mod' d w.half
  -- the first estimate: it is a half, and not too small
  have hest : ∃ q, (if h / w.half = d / w.half then w.half - 1 else h / (d / w.half)) = q ∧ q < w.half ∧
      q * (d / w.half) ≤ h ∧ h * w.half + l / w.half < (q + 1) * d := by
    refine ⟨_, rfl, ?_⟩
    split
    · next he =>
      refine ⟨by omega, ?_, ?_⟩
      · calc (w.half - 1) * (d / w.half) ≤ w.half * (d / w.half) := Nat.mul_le_mul_right _ (Nat.sub_le _ _)
          _ ≤ h := by
            rw [← he]
            exact Nat.mul_div_le h w.half
      · rw [Nat.sub_add_cancel h0]
        have := Nat.mul_le_mul_right w.half (Nat.succ_le_of_lt hh)
        rw [Nat.succ_mul, Nat.mul_comm d] at this
        generalize l / w.half = lh at *
        omega
    · next he =>
      have hle := Nat.div_le_div_right (c := w.half) (Nat.le_of_lt hh)
      have hhd : h < w.half * (d / w.half) := by
        have h1 : h / w.half + 1 ≤ d / w.half := by
          generalize h / w.half = x at *
          generalize d / w.half = y at *
          omega
        have h2 := Nat.lt_mul_div_succ h h0
        exact Nat.lt_of_lt_of_le h2 (Nat.mul_le_mul_left _ h1)
      refine ⟨Nat.div_lt_of_lt_mul (by rw [Nat.mul_comm]; exact hhd), Nat.div_mul_le_self _ _, ?_⟩
      have h3 := Nat.lt_mul_div_succ h hn
      have h4 : (h + 1) * w.half ≤ (d / w.half) * (h / (d / w.half) + 1) * w.half := Nat.mul_le_mul_right _ h3
      have h5 : (h / (d / w.half) + 1) * (d / w.half * w.half) ≤ (h / (d / w.half) + 1) * d :=
        Nat.mul_le_mul_left _ (Nat.div_mul_le_self _ _)
      have h6 : (d / w.half) * (h / (d / w.half) + 1) * w.half = (h / (d / w.half) + 1) * (d / w.half * w.half) := by
        ring
      rw [Nat.succ_mul] at h4
      generalize l / w.half = lh at *
      omega
  obtain ⟨q, hq, hqh, hP, hnot⟩ := hest
  obtain ⟨q', hle, hlt, hfix⟩ := divFix_eq (by omega) hl hd (q + 1) q (Nat.lt_succ_self q) hqh hP hnot
  have hdiv : (h * w.half + l / w.half) / d = q' := Nat.div_eq_of_lt_le hle hlt
  have hmod := Nat.div_add_mod' (h * w.half + l / w.half) d
  have hml := Nat.mod_lt (h * w.half + l / w.half) (show 0 < d by omega)
  rw [hdiv] at hmod ⊢
  have hdl := Nat.mod_lt d h0
  have hprod : q' * d = q' * (d / w.half) * w.half + d % w.half * q' := by
    conv_lhs => rw [← hdq]
    ring
  have hq' : q' < w.half := by
    by_contra hc
    have h1 := Nat.mul_le_mul_right d (Nat.le_of_not_lt hc)
    have h2 := Nat.mul_le_mul_right w.half (Nat.succ_le_of_lt hh)
    rw [Nat.succ_mul, Nat.mul_comm d] at h2
    generalize l / w.half = lh at *
    omega
  have hr : d % w.half * q' < w.base := by
    rw [← hhb]
    exact Nat.mul_lt_mul'' hdl hq'
  have hp : q * (d / w.half) < w.base := by omega
  have hr0 : d % w.half * q < w.base := by
    rw [← hhb]
    exact Nat.mul_lt_mul'' hdl hqh
  have hsum : h * w.half + l / w.half =
      q' * (d / w.half) * w.half + d % w.half * q' + (h * w.half + l / w.half) % d := by
    rw [← hprod]
    exact hmod.symm
  have hoff := take_off (show h < w.base by omega) hl hr (Nat.lt_trans hml hd) hsum rfl
  unfold divTurn
  dsimp only
  rw [hq, Nat.mod_eq_of_lt hp, Nat.mod_eq_of_lt hr0, hfix]
  dsimp only
  rw [if_neg hoff.1]
  dsimp only
  rw [hoff.2.1, hoff.2.2]

/-- the quotient of the upper three halves by two is a half -/
theorem quotient_lt {l' : Nat} (hl : l' < w.half) (hh : h < d) : (h * w.half + l') / d < w.half := by
  apply Nat.div_lt_of_lt_mul
  have := Nat.mul_le_mul_right w.half (Nat.succ_le_of_lt hh)
  rw [Nat.succ_mul] at this
  omega

/-- and the quotient of two words by one is a word -/
theorem quotient_lt_base (hl : l < w.base) (hh : h < d) : (h * w.base + l) / d < w.base := by
  apply Nat.div_lt_of_lt_mul
  have := Nat.mul_le_mul_right w.base (Nat.succ_le_of_lt hh)
  rw [Nat.succ_mul] at this
  omega

/-- two turns -/
theorem divTurns_eq (hd : d < w.base) (hl : l < w.base) (hh : h < d) (hn : 0 < d / w.half) :
    ((divTurn w d h l).q * w.half % w.base |||
      (divTurn w d ((divTurn w d h l).h * w.half % w.base ||| (divTurn w d h l).l / w.half)
        ((divTurn w d h l).l % w.half * w.half)).q) = (h * w.base + l) / d := by
  have hhb := w.half_mul
  have h0 : 0 < w.half := by
    unfold WordSize.half
    positivity
  have hlh : l / w.half < w.half := Nat.div_lt_of_lt_mul (by rw [hhb]; exact hl)
  have hll := Nat.mod_lt l h0
  have hlm := Nat.div_add_mod' l w.half
  have hq := quotient_lt hlh hh
  rw [divTurn_eq hd hl hh hn]
  dsimp only
  have hx := Nat.div_add_mod' (h * w.half + l / w.half) d
  have hm := Nat.mod_lt (h * w.half + l / w.half) (show 0 < d by omega)
  generalize (h * w.half + l / w.half) / d = q at *
  generalize (h * w.half + l / w.half) % d = m at *
  have hqb : q * w.half < w.base := by
    rw [← hhb]
    exact Nat.mul_lt_mul_of_pos_right hq h0
  have hmm := Nat.div_add_mod' m w.half
  have hmb : m / w.half * w.half < w.base := by omega
  -- the two words that are left are the rest, and the lower half of `l`
  have e1 : (m % w.half * w.half + l % w.half) / w.half = m % w.half := by
    rw [Nat.mul_comm, Nat.mul_add_div h0, Nat.div_eq_of_lt hll, Nat.add_zero]
  have e2 : (m % w.half * w.half + l % w.half) % w.half = l % w.half := by
    rw [Nat.mul_comm, Nat.mul_add_mod, Nat.mod_mod]
  have e3 : l % w.half * w.half / w.half = l % w.half := Nat.mul_div_cancel _ h0
  have e4 : l % w.half * w.half < w.base := by
    rw [← hhb]
    exact Nat.mul_lt_mul_of_pos_right hll h0
  rw [Nat.mod_eq_of_lt hqb, Nat.mod_eq_of_lt hmb, e1, e2, half_or w _ (Nat.mod_lt _ h0), hmm,
    divTurn_eq hd e4 hm hn, e3]
  dsimp only
  have hq2 := quotient_lt hll hm
  rw [half_or w _ hq2]
  have hsum : h * w.base + l = m * w.half + l % w.half + q * w.half * d := by
    calc h * w.base + l = (h * w.half + l / w.half) * w.half + l % w.half := by
          rw [← hhb]
          conv_lhs => rw [← hlm]
          ring
      _ = (q * d + m) * w.half + l % w.half := by rw [hx]
      _ = m * w.half + l % w.half + q * w.half * d := by ring
  rw [hsum, Nat.add_mul_div_right _ _ (show 0 < d by omega), Nat.add_comm]

/-- **The quotient of two words by one**, half a word at a time, for every divisor that the upper word
is below. -/
theorem divWords_eq (hd : d < w.base) (hl : l < w.base) (hh : h < d) :
    divWords w h l d = (h * w.base + l) / d := by
  have h0 : 0 < d := by omega
  unfold divWords
  rw [if_neg (by omega), numBitsWord_eq hd]
  dsimp only
  rw [if_neg (show ¬ h ≥ d by omega)]
  have hs1 : d.size ≤ w.bits2 := Nat.size_le.mpr hd
  have hs0 : 0 < d.size := Nat.size_pos.mpr h0
  generalize hi : w.bits2 - d.size = i
  -- the divisor is moved up to the top of its word
  have hlow : 2 ^ (d.size - 1) ≤ d := Nat.lt_size.mp (by omega)
  have hup : d < 2 ^ d.size := Nat.size_le.mp (Nat.le_refl _)
  have hbase : w.base = 2 ^ d.size * 2 ^ i := by
    rw [← Nat.pow_add]
    unfold WordSize.base
    congr 1
    omega
  have hD : d * 2 ^ i < w.base := by
    rw [hbase]
    exact Nat.mul_lt_mul_of_pos_right hup (Nat.two_pow_pos i)
  have hn : 0 < d * 2 ^ i / w.half := by
    apply Nat.div_pos _ (Nat.two_pow_pos _)
    calc w.half ≤ 2 ^ (w.bits2 - 1) := Nat.pow_le_pow_right (by omega) (by
          unfold WordSize.bits2
          have : 0 < w.bits4 := by cases w <;> decide
          omega)
      _ = 2 ^ (d.size - 1) * 2 ^ i := by
        rw [← Nat.pow_add]
        congr 1
        omega
      _ ≤ d * 2 ^ i := Nat.mul_le_mul_right _ hlow
  by_cases hz : i = 0
  · rw [if_neg (by omega)]
    rw [hz, Nat.pow_zero, Nat.mul_one] at hn
    exact divTurns_eq hd hl hh hn
  · rw [if_pos hz]
    have hp := Nat.two_pow_pos i
    have hsub : w.bits2 - i = d.size := by omega
    have hlq : l / 2 ^ d.size < 2 ^ i := Nat.div_lt_of_lt_mul (by rw [← hbase]; exact hl)
    have hhs : h * 2 ^ i + l / 2 ^ d.size < d * 2 ^ i := by
      have := Nat.mul_le_mul_right (2 ^ i) (Nat.succ_le_of_lt hh)
      rw [Nat.succ_mul] at this
      omega
    have hor : h * 2 ^ i % w.base ||| l / 2 ^ d.size = h * 2 ^ i + l / 2 ^ d.size := by
      rw [Nat.mod_eq_of_lt (Nat.lt_of_le_of_lt (Nat.le_add_right _ _) (Nat.lt_trans hhs hD)), Nat.mul_comm,
        Nat.two_pow_add_eq_or_of_lt hlq]
    have hmod : l * 2 ^ i % w.base = l % 2 ^ d.size * 2 ^ i := by
      rw [hbase, Nat.mul_mod_mul_right]
    have hlt : l % 2 ^ d.size * 2 ^ i < w.base := by
      rw [hbase]
      exact Nat.mul_lt_mul_of_pos_right (Nat.mod_lt _ (Nat.two_pow_pos _)) hp
    dsimp only
    rw [hsub, hor, Nat.mod_eq_of_lt hD, hmod, divTurns_eq hD hlt hhs hn]
    have hdm := Nat.div_add_mod' l (2 ^ d.size)
    have hsum : (h * 2 ^ i + l / 2 ^ d.size) * w.base + l % 2 ^ d.size * 2 ^ i = (h * w.base + l) * 2 ^ i := by
      calc (h * 2 ^ i + l / 2 ^ d.size) * w.base + l % 2 ^ d.size * 2 ^ i
          = h * w.base * 2 ^ i + (l / 2 ^ d.size * 2 ^ d.size + l % 2 ^ d.size) * 2 ^ i := by
            rw [hbase]
            ring
        _ = (h * w.base + l) * 2 ^ i := by
          rw [hdm]
          ring
    rw [hsum, Nat.mul_div_mul_right _ _ hp]

end

/-- **`bn_div_words`**: the quotient of two words by a word that is above the upper one. -/
theorem divWords_quotient (w : WordSize) {h l d : Nat} (hd : d < w.base) (hl : l < w.base) (hh : h < d) :
    divWords w h l d < w.base ∧ divWords w h l d * d ≤ h * w.base + l ∧
      h * w.base + l < (divWords w h l d + 1) * d := by
  rw [divWords_eq hd hl hh]
  have hdm := Nat.div_add_mod' (h * w.base + l) d
  have hm := Nat.mod_lt (h * w.base + l) (show 0 < d by omega)
  refine ⟨quotient_lt_base hl hh, by omega, ?_⟩
  rw [Nat.succ_mul]
  omega

theorem divWords_quotient_largest : divWords .sixtyFourBit 18446744073709551614 18446744073709551615
      18446744073709551615 < 18446744073709551616 ∧
    divWords .sixtyFourBit 18446744073709551614 18446744073709551615 18446744073709551615 * 18446744073709551615 ≤
      18446744073709551614 * 18446744073709551616 + 18446744073709551615 ∧
    18446744073709551614 * 18446744073709551616 + 18446744073709551615 <
      (divWords .sixtyFourBit 18446744073709551614 18446744073709551615 18446744073709551615 + 1) *
        18446744073709551615 :=
  divWords_quotient .sixtyFourBit (by decide) (by decide) (by decide)

end Bn
