import Firmware.Bn.Div

/-!
# tinysrp: powers

`BN_mod`, `BN_mod_mul` and `BN_mod_exp_simple` of `bn_div.c` and `bn_exp.c`. The exponent is cut from the
top on into zeros and windows; a window begins and ends with a bit that is set, and the odd powers
for the windows are made before.

* `mod`, `modMul`   products and rests;
* `scanLoop`        the window at a bit that is set;
* `expLoop`         the loop;
* `modExp`          the function;
* `modExp_is`       it is the power.
-/

set_option linter.unusedVariables false

namespace BigNum
open Bn

section
variable (w : WordSize)

/-- `BN_mod` -/
def mod (m d : BigNum) : Option BigNum := (div w m d).map Divided.rem

/-- `BN_mod_mul`; `same` is `a == b`, and the number for the product is not negative before -/
def modMul (same : Bool) (a b m : BigNum) : Option BigNum :=
  mod w (if same then sqr w false a else mul w a b) m

/-- `BN_window_bits_for_exponent_size` -/
def windowBits (b : Nat) : Nat :=
  if b > 671 then 6 else if b > 239 then 5 else if b > 79 then 4 else if b > 23 then 3 else 1

/-- `n` more entries of the table -/
def fillTable (d m : BigNum) : Nat → BigNum → Option (List BigNum)
  | 0, v => some [v]
  | n + 1, v => do
    let t ← modMul w false v d m
    let val ← fillTable d m n t
    return v :: val

/-- `val`: the odd powers of `v` -/
def oddPowers (v m : BigNum) (window : Nat) : Option (List BigNum) :=
  if window > 1 then do
    let d ← modMul w true v v m
    fillTable w d m (2 ^ (window - 1) - 1) v
  else some [v]

structure Scan where
  wvalue : Nat
  wend : Nat
deriving DecidableEq

def scanTurn (p : BigNum) (wstart : Nat) (s : Scan) (i : Nat) : Scan :=
  if isBitSet w p (wstart - i) then ⟨s.wvalue * 2 ^ (i - s.wend) ||| 1, i⟩ else s

/-- `n` bits from `i` on are looked at, if there are so many -/
def scanLoop (p : BigNum) (wstart : Nat) : Nat → Nat → Scan → Scan
  | 0, _, s => s
  | n + 1, i, s => if wstart < i then s else scanLoop p wstart n (i + 1) (scanTurn w p wstart s i)

/-- the "bytes above": `j` squares -/
def squares (m : BigNum) : Nat → BigNum → Option BigNum
  | 0, r => some r
  | j + 1, r => do
    let r ← modMul w true r r m
    squares m j r

/-- "avoid multiplication etc when there is only the value '1' in the buffer" -/
def unlessStart (start : Bool) (m : BigNum) (j : Nat) (r : BigNum) : Option BigNum :=
  if start then some r else squares w m j r

/-- the loop over the bits from `wstart` down; a turn takes one bit at the least -/
def expLoop (p m : BigNum) (val : List BigNum) (window : Nat) : Nat → Nat → Bool → BigNum → Option BigNum
  | 0, _, _, r => some r
  | fuel + 1, wstart, start, r =>
    if !isBitSet w p wstart then do
      let r ← unlessStart w start m 1 r
      if wstart = 0 then some r else expLoop p m val window fuel (wstart - 1) start r
    else do
      let s := scanLoop w p wstart (window - 1) 1 ⟨1, 0⟩
      let r ← unlessStart w start m (s.wend + 1) r
      let r ← modMul w false r (val.getD (s.wvalue / 2) zero) m
      if wstart < s.wend + 1 then some r else expLoop p m val window fuel (wstart - (s.wend + 1)) false r

/-- `BN_mod_exp_simple`; `none` is its error -/
def modExp (a p m : BigNum) : Option BigNum :=
  let bits := numBits w p
  if bits = 0 then some (ofWord 1)
  else do
    let v ← mod w a m
    let window := windowBits bits
    let val ← oddPowers w v m window
    expLoop w p m val window bits (bits - 1) true (ofWord 1)

end

variable {w : WordSize} {a b m p : BigNum} {x y n e : Nat}

/-! ## products and rests -/

theorem mod_is (ha : Is w a x) (hm : Is w m n) (h0 : 0 < n) : ∃ c, mod w a m = some c ∧ Is w c (x % n : Nat) := by
  obtain ⟨r, hr, -, hd, hn⟩ := div_is ha hm (by omega)
  refine ⟨r.rem, ?_, ?_⟩
  · unfold mod
    rw [hr]
    rfl
  · have hneg : a.neg = false := by
      rw [ha.neg]
      exact decide_eq_false (by omega)
    refine ⟨?_, ?_⟩
    · rw [hd]
      rfl
    · rw [hn, hneg]
      exact (decide_eq_false (by omega)).symm

theorem modMul_is (same : Bool) (hs : same = true → a = b) (ha : Is w a x) (hb : Is w b y) (hm : Is w m n)
    (h0 : 0 < n) : ∃ c, modMul w same a b m = some c ∧ Is w c (x * y % n : Nat) := by
  unfold modMul
  cases same with
  | true =>
    rw [if_pos rfl]
    have hxy : (x : Int) = y := by
      have h1 := ha.value
      rw [hs rfl, hb.value] at h1
      simpa using h1.symm
    have hq := sqr_is ha
    rw [show (x : Int) * x = (x * y : Nat) by rw [hxy]; push_cast; rw [hxy]] at hq
    exact mod_is hq hm h0
  | false =>
    rw [if_neg Bool.false_ne_true]
    have hq := mul_is ha hb
    rw [← Int.natCast_mul] at hq
    exact mod_is hq hm h0

theorem squares_is (hm : Is w m n) (h0 : 0 < n) (j : Nat) : ∀ {a : BigNum} {y : Nat}, Is w a (y % n : Nat) →
    ∃ c, squares w m j a = some c ∧ Is w c (y ^ 2 ^ j % n : Nat) := by
  induction j with
  | zero =>
    intro a y ha
    refine ⟨a, rfl, ?_⟩
    rwa [Nat.pow_zero, Nat.pow_one]
  | succ j ih =>
    intro a y ha
    obtain ⟨c, hc, hcis⟩ := modMul_is true (fun _ => rfl) ha ha hm h0
    rw [← Nat.mul_mod] at hcis
    obtain ⟨d, hd, hdis⟩ := ih hcis
    refine ⟨d, ?_, ?_⟩
    · unfold squares
      rw [hc]
      exact hd
    · rwa [← Nat.pow_two, ← Nat.pow_mul, ← Nat.pow_succ'] at hdis

/-- the odd powers, from one of them on -/
theorem fillTable_is (hm : Is w m n) (h0 : 0 < n) {d : BigNum} (hd : Is w d (x * x % n : Nat)) (j : Nat) :
    ∀ {v : BigNum} {i : Nat}, Is w v (x ^ (2 * i + 1) % n : Nat) → ∃ val, fillTable w d m j v = some val ∧
      ∀ k, k ≤ j → Is w (val.getD k zero) (x ^ (2 * (i + k) + 1) % n : Nat) := by
  induction j with
  | zero =>
    intro v i hv
    refine ⟨[v], rfl, fun k hk => ?_⟩
    rw [Nat.le_zero.mp hk]
    exact hv
  | succ j ih =>
    intro v i hv
    obtain ⟨t, ht, htis⟩ := modMul_is false (fun h => absurd h Bool.false_ne_true) hv hd hm h0
    have hpow : x ^ (2 * i + 1) % n * (x * x % n) % n = x ^ (2 * (i + 1) + 1) % n := by
      rw [← Nat.mul_mod]
      congr 1
      ring
    rw [hpow] at htis
    obtain ⟨val, hval, hget⟩ := ih htis
    refine ⟨v :: val, ?_, fun k hk => ?_⟩
    · unfold fillTable
      rw [ht]
      show (fillTable w d m j t).bind _ = _
      rw [hval]
      rfl
    · cases k with
      | zero => exact hv
      | succ k =>
        have := hget k (by omega)
        rwa [show i + 1 + k = i + (k + 1) by omega] at this

theorem oddPowers_is (hm : Is w m n) (h0 : 0 < n) {v : BigNum} (hv : Is w v (x % n : Nat)) (window : Nat) :
    ∃ val, oddPowers w v m window = some val ∧
      ∀ k, k ≤ 2 ^ (window - 1) - 1 → Is w (val.getD k zero) (x ^ (2 * k + 1) % n : Nat) := by
  have hv1 : Is w v (x ^ (2 * 0 + 1) % n : Nat) := by rwa [Nat.mul_zero, Nat.zero_add, Nat.pow_one]
  unfold oddPowers
  by_cases hw : window > 1
  · obtain ⟨d, hd, hdis⟩ := modMul_is true (fun _ => rfl) hv hv hm h0
    rw [← Nat.mul_mod] at hdis
    obtain ⟨val, hval, hget⟩ := fillTable_is hm h0 hdis (2 ^ (window - 1) - 1) hv1
    rw [if_pos hw, hd]
    refine ⟨val, hval, fun k hk => ?_⟩
    have := hget k hk
    rwa [Nat.zero_add] at this
  · rw [if_neg hw]
    refine ⟨[v], rfl, fun k hk => ?_⟩
    rw [show window - 1 = 0 by omega, Nat.pow_zero, Nat.sub_self] at hk
    rw [Nat.le_zero.mp hk]
    exact hv1

/-! ## a window -/

/-- the upper bits of an exponent, and the next one -/
theorem bits_below (e k : Nat) : e / 2 ^ k = 2 * (e / 2 ^ (k + 1)) + (e.testBit k).toNat := by
  have h := Nat.div_add_mod (e / 2 ^ k) 2
  rw [Nat.div_div_eq_div_mul, ← Nat.pow_succ] at h
  rw [Nat.toNat_testBit]
  exact h.symm

/-- what is known of the bits above `wstart - i`: the window ends with the last one that is set -/
structure Scanned (e wstart i : Nat) (s : Scan) : Prop where
  inside : s.wend < i
  odd : s.wvalue % 2 = 1
  bits : e / 2 ^ (wstart + 1 - i) = e / 2 ^ (wstart + 1) * 2 ^ i + s.wvalue * 2 ^ (i - 1 - s.wend)

theorem scanTurn_scanned (hp : Is w p e) {wstart i : Nat} {s : Scan} (h : Scanned e wstart i s)
    (hi : i ≤ wstart) : Scanned e wstart (i + 1) (scanTurn w p wstart s i) := by
  have hin := h.inside
  have hodd := h.odd
  have hb := bits_below e (wstart - i)
  rw [show wstart - i + 1 = wstart + 1 - i by omega, h.bits] at hb
  unfold scanTurn
  rw [isBitSet_eq hp]
  cases ht : e.testBit (wstart - i) with
  | true =>
    rw [if_pos rfl]
    have hk : i - s.wend = i - 1 - s.wend + 1 := by omega
    have hor : s.wvalue * 2 ^ (i - s.wend) ||| 1 = 2 * (s.wvalue * 2 ^ (i - 1 - s.wend)) + 1 := by
      rw [hk, Nat.pow_succ, ← Nat.mul_assoc, Nat.mul_comm _ 2]
      exact (Nat.two_pow_add_eq_or_of_lt (i := 1) (b := 1) (by omega) _).symm
    refine ⟨Nat.lt_succ_self i, ?_, ?_⟩
    · show (s.wvalue * 2 ^ (i - s.wend) ||| 1) % 2 = 1
      rw [hor]
      omega
    · show _ = _ + (s.wvalue * 2 ^ (i - s.wend) ||| 1) * 2 ^ (i + 1 - 1 - i)
      rw [hor, show i + 1 - 1 - i = 0 by omega, Nat.pow_zero, Nat.mul_one,
        show wstart + 1 - (i + 1) = wstart - i by omega, hb, ht, Nat.pow_succ]
      show 2 * (_ + _) + 1 = _
      ring
  | false =>
    rw [if_neg Bool.false_ne_true]
    refine ⟨by omega, hodd, ?_⟩
    rw [show i + 1 - 1 - s.wend = i - 1 - s.wend + 1 by omega,
      show wstart + 1 - (i + 1) = wstart - i by omega, hb, ht, Nat.pow_succ, Nat.pow_succ]
    show 2 * (_ + _) + 0 = _
    ring

theorem scanLoop_scanned (hp : Is w p e) {wstart : Nat} (n : Nat) : ∀ {i : Nat} {s : Scan},
    Scanned e wstart i s → i ≤ wstart + 1 → ∃ k, Scanned e wstart k (scanLoop w p wstart n i s) ∧
      k ≤ wstart + 1 ∧ k ≤ i + n := by
  induction n with
  | zero =>
    intro i s h hi
    exact ⟨i, h, hi, Nat.le_refl _⟩
  | succ n ih =>
    intro i s h hi
    unfold scanLoop
    split
    · exact ⟨i, h, hi, by omega⟩
    · next hlt =>
      obtain ⟨k, hk, h1, h2⟩ := ih (scanTurn_scanned hp h (by omega)) (by omega)
      exact ⟨k, hk, h1, by omega⟩

/-- **The window** at a bit that is set: the bits down to the last one that is set in it. -/
theorem scan_window (hp : Is w p e) {wstart : Nat} (hset : e.testBit wstart = true) (window : Nat) {s : Scan}
    (hs : s = scanLoop w p wstart (window - 1) 1 ⟨1, 0⟩) : s.wend ≤ wstart ∧
      2 * (s.wvalue / 2) + 1 = s.wvalue ∧ s.wvalue / 2 ≤ 2 ^ (window - 1) - 1 ∧
      e / 2 ^ (wstart - s.wend) = e / 2 ^ (wstart + 1) * 2 ^ (s.wend + 1) + s.wvalue := by
  have hb := bits_below e wstart
  rw [hset] at hb
  have h0 : Scanned e wstart 1 ⟨1, 0⟩ := by
    refine ⟨Nat.one_pos, rfl, ?_⟩
    rw [Nat.add_sub_cancel, hb, Nat.mul_comm, Nat.pow_one]
    rfl
  obtain ⟨k, hk, hk1, hk2⟩ := scanLoop_scanned hp (window - 1) h0 (by omega)
  rw [← hs] at hk
  have hin := hk.inside
  have hodd := hk.odd
  have hbits : e / 2 ^ (wstart - s.wend) = e / 2 ^ (wstart + 1) * 2 ^ (s.wend + 1) + s.wvalue := by
    obtain ⟨j, hj⟩ : ∃ j, k = s.wend + 1 + j := ⟨k - (s.wend + 1), by omega⟩
    have hkb := hk.bits
    rw [hj, show s.wend + 1 + j - 1 - s.wend = j by omega, Nat.pow_add 2 (s.wend + 1), ← Nat.mul_assoc,
      ← Nat.add_mul] at hkb
    rw [show wstart - s.wend = wstart + 1 - (s.wend + 1 + j) + j by omega, Nat.pow_add, ← Nat.div_div_eq_div_mul,
      hkb, Nat.mul_div_cancel _ (Nat.two_pow_pos j)]
  -- as many bits as the window has
  have hval : s.wvalue < 2 ^ (s.wend + 1) := by
    have hup : e / 2 ^ (wstart - s.wend) / 2 ^ (s.wend + 1) = e / 2 ^ (wstart + 1) := by
      rw [Nat.div_div_eq_div_mul, ← Nat.pow_add, show wstart - s.wend + (s.wend + 1) = wstart + 1 by omega]
    have hlt := Nat.lt_div_mul_add (a := e / 2 ^ (wstart - s.wend)) (Nat.two_pow_pos (s.wend + 1))
    rw [hup, hbits] at hlt
    omega
  refine ⟨by omega, by omega, ?_, hbits⟩
  have hle : 2 ^ (s.wend + 1) ≤ 2 * 2 ^ (window - 1) := by
    rw [← Nat.pow_succ']
    exact Nat.pow_le_pow_right (by omega) (by omega)
  omega

/-! ## the loop -/

/-- `r` is the power with the bits above `wstart`; until one is set nothing is multiplied -/
structure Raised (w : WordSize) (x n e wstart : Nat) (start : Bool) (r : BigNum) : Prop where
  first : start = true → e / 2 ^ (wstart + 1) = 0 ∧ Is w r (1 : Nat)
  rest : start = false → Is w r (x ^ (e / 2 ^ (wstart + 1)) % n : Nat)

/-- the squares before a bit or a window -/
theorem Raised.squared {wstart : Nat} {start : Bool} {r : BigNum} (h : Raised w x n e wstart start r)
    (hm : Is w m n) (h0 : 0 < n) (j : Nat) : ∃ c, unlessStart w start m j r = some c ∧
      (start = true → e / 2 ^ (wstart + 1) = 0 ∧ Is w c (1 : Nat)) ∧
      (start = false → Is w c (x ^ (e / 2 ^ (wstart + 1) * 2 ^ j) % n : Nat)) := by
  cases start with
  | true => exact ⟨r, rfl, h.first, fun h => absurd h.symm Bool.false_ne_true⟩
  | false =>
    obtain ⟨c, hc, hcis⟩ := squares_is hm h0 j (h.rest rfl)
    rw [← Nat.pow_mul] at hcis
    exact ⟨c, hc, fun h => absurd h Bool.false_ne_true, fun _ => hcis⟩

section
variable {val : List BigNum} {window : Nat}

theorem expLoop_is (hp : Is w p e) (he : 0 < e) (hm : Is w m n) (h0 : 0 < n)
    (hval : ∀ k, k ≤ 2 ^ (window - 1) - 1 → Is w (val.getD k zero) (x ^ (2 * k + 1) % n : Nat)) (fuel : Nat) :
    ∀ {wstart : Nat} {start : Bool} {r : BigNum}, wstart < fuel → Raised w x n e wstart start r →
      ∃ c, expLoop w p m val window fuel wstart start r = some c ∧ Is w c (x ^ e % n : Nat) := by
  induction fuel with
  | zero =>
    intro wstart start r hf
    omega
  | succ fuel ih =>
    intro wstart start r hf h
    unfold expLoop
    rw [isBitSet_eq hp]
    cases hb : e.testBit wstart with
    | false =>
      rw [Bool.not_false, if_pos rfl]
      have hbits := bits_below e wstart
      rw [hb, Bool.toNat_false, Nat.add_zero] at hbits
      obtain ⟨c, hc, hc1, hc2⟩ := h.squared hm h0 1
      rw [hc]
      have hnext : (start = true → e / 2 ^ wstart = 0 ∧ Is w c (1 : Nat)) ∧
          (start = false → Is w c (x ^ (e / 2 ^ wstart) % n : Nat)) := by
        refine ⟨fun hs => ⟨?_, (hc1 hs).2⟩, fun hs => ?_⟩
        · rw [hbits, (hc1 hs).1]
        · have := hc2 hs
          rwa [Nat.pow_one, Nat.mul_comm, ← hbits] at this
      show ∃ d, (if wstart = 0 then some c else expLoop w p m val window fuel (wstart - 1) start c) = some d ∧ _
      by_cases hw : wstart = 0
      · rw [if_pos hw]
        refine ⟨c, rfl, ?_⟩
        rw [hw, Nat.pow_zero, Nat.div_one] at hnext
        cases start with
        | true =>
          have := (hnext.1 rfl).1
          omega
        | false => exact hnext.2 rfl
      · rw [if_neg hw]
        apply ih (by omega)
        rw [show wstart = wstart - 1 + 1 by omega] at hnext
        exact ⟨hnext.1, hnext.2⟩
    | true =>
      rw [Bool.not_true, if_neg Bool.false_ne_true]
      dsimp only
      generalize hs : scanLoop w p wstart (window - 1) 1 ⟨1, 0⟩ = s
      obtain ⟨hs1, hs2, hs3, hs4⟩ := scan_window hp hb window hs.symm
      obtain ⟨c, hc, hc1, hc2⟩ := h.squared hm h0 (s.wend + 1)
      have hv := hval _ hs3
      rw [hs2] at hv
      -- the power with the bits down to the end of the window
      obtain ⟨d, hd, hdis⟩ : ∃ d, modMul w false c (val.getD (s.wvalue / 2) zero) m = some d ∧
          Is w d (x ^ (e / 2 ^ (wstart - s.wend)) % n : Nat) := by
        cases start with
        | true =>
          obtain ⟨hz, hone⟩ := hc1 rfl
          obtain ⟨d, hd, hdis⟩ := modMul_is false (fun h => absurd h Bool.false_ne_true) hone hv hm h0
          rw [Nat.one_mul, Nat.mod_mod] at hdis
          rw [hz, Nat.zero_mul, Nat.zero_add] at hs4
          rw [hs4]
          exact ⟨d, hd, hdis⟩
        | false =>
          obtain ⟨d, hd, hdis⟩ := modMul_is false (fun h => absurd h Bool.false_ne_true) (hc2 rfl) hv hm h0
          rw [← Nat.mul_mod, ← Nat.pow_add, ← hs4] at hdis
          exact ⟨d, hd, hdis⟩
      rw [hc]
      show ∃ t, (modMul w false c (val.getD (s.wvalue / 2) zero) m).bind _ = some t ∧ _
      rw [hd]
      show ∃ t, (if wstart < s.wend + 1 then some d
        else expLoop w p m val window fuel (wstart - (s.wend + 1)) false d) = some t ∧ _
      by_cases hw : wstart < s.wend + 1
      · rw [if_pos hw]
        rw [show wstart - s.wend = 0 by omega, Nat.pow_zero, Nat.div_one] at hdis
        exact ⟨d, rfl, hdis⟩
      · rw [if_neg hw]
        apply ih (by omega)
        refine ⟨fun h => absurd h Bool.false_ne_true, fun _ => ?_⟩
        rwa [show wstart - (s.wend + 1) + 1 = wstart - s.wend by omega]

end

/-- **The power**, for every modulus that is not 0; with the exponent 0 it is not reduced. -/
theorem modExp_is (ha : Is w a x) (hp : Is w p e) (hm : Is w m n) (h0 : 0 < n) :
    ∃ c, modExp w a p m = some c ∧ Is w c ((if e = 0 then 1 else x ^ e % n : Nat) : Int) := by
  have h1 := w.one_lt_base
  have hbits : numBits w p = e.size := numBits_eq hp
  unfold modExp
  dsimp only
  rw [hbits]
  by_cases he : e = 0
  · rw [if_pos (by rw [he, Nat.size_zero]), if_pos he]
    exact ⟨_, rfl, ofWord_is h1⟩
  · have hsz : 0 < e.size := Nat.size_pos.mpr (by omega)
    rw [if_neg (by omega), if_neg he]
    obtain ⟨v, hv, hvis⟩ := mod_is ha hm h0
    obtain ⟨val, hval, hget⟩ := oddPowers_is hm h0 hvis (windowBits e.size)
    rw [hv]
    show ∃ c, (oddPowers w v m (windowBits e.size)).bind _ = some c ∧ _
    rw [hval]
    apply expLoop_is hp (by omega) hm h0 hget e.size (by omega)
    refine ⟨fun _ => ⟨?_, ofWord_is h1⟩, fun h => absurd h.symm Bool.false_ne_true⟩
    rw [show e.size - 1 + 1 = e.size by omega]
    exact Nat.div_eq_of_lt (Nat.lt_size_self e)

/-- **The bytes of a power**, whatever the size of a word. -/
theorem modExp_bytes (w : WordSize) (s t u : List UInt8) {v : Nat} (h0 : Bits.ofBytes u ≠ 0)
    (hv : v = if Bits.ofBytes t = 0 then 1 else Bits.ofBytes s ^ Bits.ofBytes t % Bits.ofBytes u) :
    ∃ c, modExp w (bin2bn w s) (bin2bn w t) (bin2bn w u) = some c ∧
      bn2bin w c = Bits.toBytes ((v.size + 7) / 8) v := by
  obtain ⟨c, hc, hcis⟩ := modExp_is (bin2bn_is w s) (bin2bn_is w t) (bin2bn_is w u) (by omega)
  rw [← hv] at hcis
  exact ⟨c, hc, bn2bin_eq hcis⟩

/-- an exponent of 24 bits, so with windows of three -/
theorem modExp_bytes_window : ∃ c, modExp .thirtyTwoBit (bin2bn .thirtyTwoBit [3])
      (bin2bn .thirtyTwoBit [137, 84, 65]) (bin2bn .thirtyTwoBit [1, 0, 1]) = some c ∧
    bn2bin .thirtyTwoBit c = Bits.toBytes ((Nat.size 17215 + 7) / 8) 17215 :=
  modExp_bytes .thirtyTwoBit [3] [137, 84, 65] [1, 0, 1] (by decide) (by decide +kernel)

end BigNum
