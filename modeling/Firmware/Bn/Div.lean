import Firmware.Bn.Mul
import Firmware.Lib.Estimate

/-!
# tinysrp: quotients

`BN_div` of `bn_div.c`, compiled with `NO_ASM`: the digits of the quotient are found from the top on in
a window that slides down the dividend, and everything is done in the words of the dividend.

* `divDigit`    the estimate of a digit;
* `Window`      `snum` and the window `wnum` in it;
* `divStep`     a turn of the loop: a digit, and its multiple of the divisor taken off;
* `div`         the function;
* `div_is`      it finds the quotient and the rest.
-/

set_option linter.unusedVariables false

namespace Bn
open Nat (ofDigits digits)
open Limbs Img BigNum

section
variable (w : WordSize)

/-! ## a digit -/

/-- the loop that corrects `q`: it ends at the latest with `q = 0` -/
def divAdjust (d1 d0 n2 : Nat) : Nat → Nat → Nat → Nat → Nat → Nat
  | 0, q, _, _, _ => q
  | fuel + 1, q, rem, t2h, t2l =>
    if t2h < rem ∨ (t2h = rem ∧ t2l ≤ n2) then q
    else
      let q := (q + w.base - 1) % w.base
      let rem := (rem + d0) % w.base
      if rem < d0 then q
      else
        let t2h := if t2l < d1 then (t2h + w.base - 1) % w.base else t2h
        divAdjust d1 d0 n2 fuel q rem t2h ((t2l + w.base - d1) % w.base)

/-- `n0`, `n1` and `n2` are `wnump[0]`, `wnump[-1]` and `wnump[-2]` -/
def divDigit (d1 d0 n0 n1 n2 : Nat) : Nat :=
  if n0 = d0 then w.base - 1
  else
    let q := divWords w n0 n1 d0
    let rem := (n1 + w.base - q * d0 % w.base) % w.base
    let t2 := mul64 w (lbits w d1) (hbits w d1) (lbits w q) (hbits w q)
    divAdjust w d1 d0 n2 (q + 1) q rem t2.2 t2.1

/-! ## the window -/

/-- `wnum.d` is `snum->d + off`, `stop` is `snum->top` -/
structure Window where
  d : List Nat
  off : Nat
  top : Nat
  neg : Bool
  stop : Nat

def Window.words (s : Window) : List Nat := slice s.d s.off s.top

/-- the words `r` are written to the window, then the zeros at the top are dropped -/
def Window.write (s : Window) (r : List Nat) (neg : Bool) : Window :=
  { s with d := poke s.d s.off r, top := (trim r).length, neg := neg }

/-- `BN_sub(&wnum, &wnum, tmp)` -/
def Window.sub (s : Window) (b : List Nat) : Window :=
  if s.neg then s.write (uadd w s.words b) true
  else if ucmpWords s.words b = .lt then s.write (usubWords w b s.words) true
  else s.write (usubWords w s.words b) false

/-- `BN_add(&wnum, &wnum, sdiv)` of a negative `wnum` -/
def Window.addBack (s : Window) (b : List Nat) : Window :=
  if ucmpWords b s.words = .lt then s.write (usubWords w s.words b) true
  else s.write (usubWords w b s.words) false

/-- `q` times the divisor, `tmp`, is taken off; if that was too much, the divisor is added once -/
def divTake (sdiv tmp : List Nat) (q : Nat) (s : Window) : Nat × Window :=
  let j := s.top
  let s := s.sub w tmp
  let s := { s with stop := s.stop + s.top - j }
  if s.neg then
    let q := (q + w.base - 1) % w.base
    let j := s.top
    let s := s.addBack w sdiv
    (q, { s with stop := s.stop + s.top - j })
  else (q, s)

/-- a turn of the loop: the digit, and the window one word further down -/
def divStep (sdiv : List Nat) (d1 d0 wnump : Nat) (s : Window) : Nat × Window :=
  let q := divDigit w d1 d0 (s.d.getD wnump 0) (s.d.getD (wnump - 1) 0) (s.d.getD (wnump - 2) 0)
  let m := mulWords w sdiv q
  divTake w sdiv (trim (m.1 ++ [m.2])) q { s with off := s.off - 1, top := s.top + 1 }

/-- the digits are written from the top on -/
def divLoop (sdiv : List Nat) (d1 d0 : Nat) : Nat → Nat → List Nat → Window → List Nat × Window
  | 0, _, res, s => (res, s)
  | n + 1, wnump, res, s =>
    let t := divStep w sdiv d1 d0 wnump s
    divLoop sdiv d1 d0 n (wnump - 1) (t.1 :: res) t.2

end

/-! ## the estimate -/

variable {w : WordSize}

/-- a digit that is right, or too large by one -/
structure Close (w : WordSize) (u d q : Nat) : Prop where
  word : q < w.base
  lower : u < (q + 1) * d
  upper : q * d ≤ u + d

section
variable {p u d n2 n1 n0 d1 d0 : Nat} (h : Estimate.Upper w.base p u d n2 n1 n0 d1 d0) (hd0 : 0 < d0)
  (hd0' : d0 < w.base) (hn2 : n2 < w.base)
include h hd0 hd0' hn2

theorem divAdjust_close (fuel : Nat) : ∀ q rem t2h t2l : Nat, q < fuel → q < w.base → rem < w.base →
    q * d0 + rem = n0 * w.base + n1 → t2l < w.base → t2h < w.base → t2l + w.base * t2h = q * d1 →
    u < (q + 1) * d → Close w u d (divAdjust w d1 d0 n2 fuel q rem t2h t2l) := by
  induction fuel with
  | zero =>
    intro q rem t2h t2l hq
    omega
  | succ fuel ih =>
    intro q rem t2h t2l hq hqb hrem hsum hl hh ht hlow
    have hd1 := h.second
    -- the test is that of the upper digits
    have htest : (t2h < rem ∨ t2h = rem ∧ t2l ≤ n2) ↔ q * d1 ≤ rem * w.base + n2 := by
      rw [← ht, Nat.mul_comm rem]
      constructor
      · rintro (hc | ⟨rfl, hc⟩)
        · have := Nat.mul_le_mul_left w.base (Nat.succ_le_of_lt hc)
          rw [Nat.mul_succ] at this
          omega
        · omega
      · intro hc
        rcases Nat.lt_trichotomy t2h rem with h1 | h1 | h1
        · exact Or.inl h1
        · rw [h1] at hc
          exact Or.inr ⟨h1, by omega⟩
        · have := Nat.mul_le_mul_left w.base (Nat.succ_le_of_lt h1)
          rw [Nat.mul_succ] at this
          omega
    have hupper : q * (d0 * w.base + d1) + rem * w.base = (n0 * w.base + n1) * w.base + q * d1 := by
      rw [← hsum]
      ring
    unfold divAdjust
    dsimp only
    by_cases hc : q * d1 ≤ rem * w.base + n2
    · rw [if_pos (htest.mpr hc)]
      exact ⟨hqb, hlow, Estimate.le_of_test h hd0 (Nat.le_of_lt hqb) (by omega)⟩
    · rw [if_neg fun ht' => hc (htest.mp ht')]
      have hlt : u < q * d := Estimate.lt_of_test h (by omega)
      obtain ⟨k, rfl⟩ : ∃ k, q = k + 1 := by
        refine ⟨q - 1, ?_⟩
        rcases Nat.eq_zero_or_pos q with h0 | h0
        · rw [h0, Nat.zero_mul] at hlt
          omega
        · omega
      have hk : (k + 1 + w.base - 1) % w.base = k := by
        rw [show k + 1 + w.base - 1 = k + w.base by omega, Nat.add_mod_right, Nat.mod_eq_of_lt (by omega)]
      have hsum' : k * d0 + (rem + d0) = n0 * w.base + n1 := by
        rw [← hsum, Nat.succ_mul]
        omega
      rw [hk]
      by_cases hov : rem + d0 < w.base
      · rw [Nat.mod_eq_of_lt hov, if_neg (by omega)]
        rw [Nat.succ_mul] at ht
        -- the product of the next digit
        have hsub : (if t2l < d1 then (t2h + w.base - 1) % w.base else t2h) < w.base ∧
            (t2l + w.base - d1) % w.base < w.base ∧
            (t2l + w.base - d1) % w.base + w.base * (if t2l < d1 then (t2h + w.base - 1) % w.base else t2h) =
              k * d1 := by
          by_cases hb : t2l < d1
          · have h0 : t2h ≠ 0 := by
              intro h0
              rw [h0, Nat.mul_zero] at ht
              omega
            have e1 : (t2h + w.base - 1) % w.base = t2h - 1 := by
              rw [show t2h + w.base - 1 = t2h - 1 + w.base by omega, Nat.add_mod_right,
                Nat.mod_eq_of_lt (by omega)]
            have e2 : w.base * t2h = w.base * (t2h - 1) + w.base := by
              rw [← Nat.mul_succ]
              congr 1
              omega
            rw [if_pos hb, e1, Nat.mod_eq_of_lt (by omega)]
            omega
          · rw [if_neg hb, show t2l + w.base - d1 = t2l - d1 + w.base by omega, Nat.add_mod_right,
              Nat.mod_eq_of_lt (by omega)]
            omega
        exact ih k _ _ _ (by omega) (by omega) hov hsum' hsub.2.1 hsub.1 hsub.2.2 hlt
      · have hwrap : (rem + d0) % w.base < d0 := by
          rw [Nat.mod_eq_sub_mod (by omega), Nat.mod_eq_of_lt (by omega)]
          omega
        rw [if_pos hwrap]
        refine ⟨by omega, hlt, Estimate.le_of_test h hd0 (by omega) ?_⟩
        -- the rest does not fit a word, so the second digit does not matter
        have h1 : k * d1 ≤ w.base * w.base := Nat.mul_le_mul (by omega) (Nat.le_of_lt hd1)
        have h2 : w.base * w.base ≤ (rem + d0) * w.base := Nat.mul_le_mul_right _ (by omega)
        have h3 : k * (d0 * w.base + d1) + (rem + d0) * w.base = (n0 * w.base + n1) * w.base + k * d1 := by
          rw [← hsum']
          ring
        omega

theorem divDigit_close (hn1 : n1 < w.base) (hn0 : n0 ≤ d0) (hnorm : w.base ≤ 2 * d0) (hud : u < w.base * d) :
    Close w u d (divDigit w d1 d0 n0 n1 n2) := by
  have h1 := w.one_lt_base
  have hd1 := h.second
  unfold divDigit
  by_cases hne : n0 = d0
  · rw [if_pos hne]
    exact ⟨by omega, by rwa [Nat.sub_add_cancel (by omega)], Estimate.le_of_top h hne (by omega)⟩
  · rw [if_neg hne]
    have hlt : n0 < d0 := by omega
    dsimp only
    rw [divWords_eq hd0' hn1 hlt]
    have hdm := Nat.div_add_mod' (n0 * w.base + n1) d0
    have hm := Nat.mod_lt (n0 * w.base + n1) hd0
    have hq : (n0 * w.base + n1) / d0 < w.base := quotient_lt_base hn1 hlt
    -- the lower word of the product is enough for the rest
    have hrem : (n1 + w.base - (n0 * w.base + n1) / d0 * d0 % w.base) % w.base = (n0 * w.base + n1) % d0 := by
      generalize (n0 * w.base + n1) / d0 * d0 = x at *
      generalize (n0 * w.base + n1) % d0 = r at *
      have hx := Nat.div_add_mod x w.base
      have hxm := Nat.mod_lt x (show 0 < w.base by omega)
      have he : n1 + w.base - x % w.base + w.base * n0 = r + w.base * (x / w.base + 1) := by
        rw [Nat.mul_succ, Nat.mul_comm w.base n0]
        omega
      have hmod := congrArg (· % w.base) he
      rwa [Nat.add_mul_mod_self_left, Nat.add_mul_mod_self_left, Nat.mod_eq_of_lt (show r < w.base by omega)]
        at hmod
    rw [hrem]
    generalize hqd : (n0 * w.base + n1) / d0 = q at *
    obtain ⟨hm1, hm2⟩ := mul64_words hd1 hq
    rw [Nat.mul_comm d1] at hm2
    have hprod : q * d1 < w.base * w.base := Nat.mul_lt_mul'' hq hd1
    refine divAdjust_close h hd0 hd0' hn2 (q + 1) q _ _ _ (Nat.lt_succ_self q) hq (by omega) hdm hm1
      (upper_lt hm2 hprod) hm2 (Estimate.lt_of_test h ?_)
    -- without the second digit the estimate is not too small
    calc (n0 * w.base + n1) * w.base + n2 < (n0 * w.base + n1 + 1) * w.base := by
          rw [Nat.succ_mul]
          omega
      _ ≤ (q + 1) * d0 * w.base := Nat.mul_le_mul_right _ (by
          rw [Nat.succ_mul]
          omega)
      _ = (q + 1) * (d0 * w.base) := Nat.mul_assoc _ _ _
      _ ≤ (q + 1) * (d0 * w.base + d1) := Nat.mul_le_mul_left _ (Nat.le_add_right _ _)

end


/-! ## what the window holds -/

/-- the words from the window on are the number `v`, and so are those of the window -/
structure Holds (w : WordSize) (s : Window) (v : Nat) : Prop where
  below : Below w.base s.d
  fits : s.off + s.top ≤ s.d.length
  value : ofDigits w.base (s.d.drop s.off) = v
  words : ofDigits w.base s.words = v

theorem Holds.length {s : Window} {v : Nat} (h : Holds w s v) : s.words.length = s.top :=
  slice_length _ _ _ h.fits

theorem Holds.words_below {s : Window} {v : Nat} (h : Holds w s v) : Below w.base s.words :=
  (h.below.drop _).take _

/-- what `write` leaves: the new number, without zeros at the top -/
structure Written (w : WordSize) (s s' : Window) (v : Nat) : Prop where
  holds : Holds w s' v
  words : s'.words = digits w.base v
  off : s'.off = s.off
  length : s'.d.length = s.d.length
  low : s'.d.take s.off = s.d.take s.off
  stop : s'.stop = s.stop

/-- enough words are written to cover the number that was there -/
theorem write_written {s : Window} {v : Nat} (h : Holds w s v) {r : List Nat} (hr : Below w.base r)
    (hv : v < w.base ^ r.length) (hl : s.off + r.length ≤ s.d.length) (neg : Bool) :
    Written w s (s.write r neg) (ofDigits w.base r) := by
  have h1 := w.one_lt_base
  have hz : ofDigits w.base (s.d.drop (s.off + r.length)) = 0 := by
    rw [← List.drop_drop, ofDigits_drop h1 (h.below.drop _), h.value, Nat.div_eq_of_lt hv]
  have hlen : (poke s.d s.off r).length = s.d.length := poke_length _ _ _ hl
  have htl : (s.d.take s.off).length = s.off := List.length_take_of_le (by omega)
  have hdrop : (poke s.d s.off r).drop s.off = r ++ s.d.drop (s.off + r.length) := by
    unfold poke
    exact List.drop_left' htl
  have htr := trim_length_le r
  have hwords : (s.write r neg).words = trim r := by
    show slice (poke s.d s.off r) s.off (trim r).length = _
    unfold slice
    rw [hdrop, List.take_append_of_le_length htr, ← trim_eq_take]
  refine ⟨⟨?_, ?_, ?_, ?_⟩, ?_, rfl, hlen, ?_, rfl⟩
  · exact (h.below.take _).append (hr.append (h.below.drop _))
  · show s.off + (trim r).length ≤ (poke s.d s.off r).length
    omega
  · show ofDigits w.base ((poke s.d s.off r).drop s.off) = _
    rw [hdrop, Nat.ofDigits_append, hz, Nat.mul_zero, Nat.add_zero]
  · rw [hwords, ofDigits_trim]
  · rw [hwords, trim_eq_digits h1 hr]
  · show (poke s.d s.off r).take s.off = _
    unfold poke
    exact List.take_left' htl

/-- the words of a window one word further down: there can be one zero at the top, in a number that is 0 -/
def Spelled (w : WordSize) (l : List Nat) (u : Nat) : Prop := l = digits w.base u ∨ l = [0] ∧ u = 0

theorem spelled_cons {x r : Nat} (hx : x < w.base) : Spelled w (x :: digits w.base r) (x + w.base * r) := by
  by_cases h0 : x = 0 ∧ r = 0
  · rw [h0.1, h0.2, Nat.digits_zero]
    exact Or.inr ⟨rfl, rfl⟩
  · exact Or.inl (Nat.digits_add _ w.one_lt_base _ _ hx (by omega)).symm

theorem ucmp_spelled {l : List Nat} {u : Nat} (h : Spelled w l u) (n : Nat) :
    ucmpWords l (digits w.base n) = .lt ↔ u < n := by
  rcases h with rfl | ⟨rfl, rfl⟩
  · rw [ucmpWords_eq, Nat.compare_eq_lt]
  · unfold ucmpWords
    by_cases h0 : n = 0
    · rw [h0, Nat.digits_zero]
      decide
    · have hl := List.length_pos_iff.mpr (Nat.digits_ne_nil_iff_ne_zero (b := w.base).mpr h0)
      by_cases h1 : (digits w.base n).length = 1
      · obtain ⟨x, hx⟩ := List.length_eq_one_iff.mp h1
        have hval := Nat.ofDigits_digits w.base n
        rw [hx, Nat.ofDigits_singleton] at hval
        rw [hx, if_neg fun h => h rfl, hval]
        refine iff_of_true ?_ (by omega)
        show (if 0 ≠ n then (if 0 > n then Ordering.gt else .lt) else _) = _
        rw [if_pos (by omega), if_neg (by omega)]
      · rw [if_pos (by rw [List.length_singleton]; omega), List.length_singleton, Nat.compare_eq_lt]
        omega

/-- **A multiple is taken off the window.** -/
theorem sub_written {s : Window} {u m : Nat} (h : Holds w s u) (hs : Spelled w s.words u) (hneg : s.neg = false)
    (hl : s.off + (digits w.base m).length ≤ s.d.length) :
    (m ≤ u → Written w s (s.sub w (digits w.base m)) (u - m) ∧ (s.sub w (digits w.base m)).neg = false) ∧
    (u < m → Written w s (s.sub w (digits w.base m)) (m - u) ∧ (s.sub w (digits w.base m)).neg = true) := by
  have h1 := w.one_lt_base
  have hlen := h.length
  have hub := Below.lt h1 h.words_below
  rw [h.words] at hub
  unfold Window.sub
  rw [hneg, if_neg Bool.false_ne_true]
  constructor
  · intro hle
    rw [if_neg (by rw [ucmp_spelled hs]; omega)]
    have hll : (digits w.base m).length ≤ s.words.length := by
      rcases hs with hs | ⟨hs, h0⟩
      · rw [hs]
        exact digits_length_mono _ hle
      · rw [show m = 0 by omega, Nat.digits_zero]
        exact Nat.zero_le _
    obtain ⟨h2, h3, h4⟩ := usubWords_eq h.words_below (digits_below w m) hll (by
      rw [h.words, Nat.ofDigits_digits]
      exact hle)
    have hw := write_written h h2 (by rw [h3]; exact hub) (by rw [h3, hlen]; exact h.fits) false
    rw [h4, h.words, Nat.ofDigits_digits] at hw
    exact ⟨hw, rfl⟩
  · intro hlt
    rw [if_pos ((ucmp_spelled hs m).mpr hlt)]
    have hmb := Nat.lt_base_pow_length_digits (m := m) h1
    have hll : s.words.length ≤ (digits w.base m).length := by
      rcases hs with hs | ⟨hs, h0⟩
      · rw [hs]
        exact digits_length_mono _ (Nat.le_of_lt hlt)
      · rw [hs]
        exact List.length_pos_iff.mpr (Nat.digits_ne_nil_iff_ne_zero.mpr (by omega))
    obtain ⟨h2, h3, h4⟩ := usubWords_eq (digits_below w m) h.words_below hll (by
      rw [h.words, Nat.ofDigits_digits]
      exact Nat.le_of_lt hlt)
    have hw := write_written h h2 (by rw [h3]; omega) (by rw [h3]; exact hl) true
    rw [h4, h.words, Nat.ofDigits_digits] at hw
    exact ⟨hw, rfl⟩

theorem addBack_written {s : Window} {u d : Nat} (h : Holds w s u) (hs : s.words = digits w.base u) (hu : u ≤ d)
    (hl : s.off + (digits w.base d).length ≤ s.d.length) :
    Written w s (s.addBack w (digits w.base d)) (d - u) ∧ (s.addBack w (digits w.base d)).neg = false := by
  have h1 := w.one_lt_base
  have hdb := Nat.lt_base_pow_length_digits (m := d) h1
  unfold Window.addBack
  rw [hs, ucmpWords_eq, if_neg (by rw [Nat.compare_eq_lt]; omega)]
  obtain ⟨h2, h3, h4⟩ := usubWords_eq (digits_below w d) (digits_below w u) (digits_length_mono _ hu) (by
    rw [Nat.ofDigits_digits, Nat.ofDigits_digits]
    exact hu)
  have hw := write_written h h2 (by rw [h3]; omega) (by rw [h3]; exact hl) false
  rw [h4, Nat.ofDigits_digits, Nat.ofDigits_digits] at hw
  exact ⟨hw, rfl⟩

theorem Written.withStop {s s' : Window} {v : Nat} (h : Written w s s' v) (n : Nat) :
    Holds w { s' with stop := n } v ∧ ({ s' with stop := n } : Window).words = digits w.base v :=
  ⟨⟨h.holds.below, h.holds.fits, h.holds.value, h.holds.words⟩, h.words⟩

/-- the rest of a turn -/
structure Taken (w : WordSize) (s s' : Window) (v : Nat) : Prop where
  holds : Holds w s' v
  words : s'.words = digits w.base v
  neg : s'.neg = false
  off : s'.off = s.off
  length : s'.d.length = s.d.length
  low : s'.d.take s.off = s.d.take s.off
  stop : s'.off + s'.top ≤ s'.stop

theorem divTake_eq {s : Window} {u d q : Nat} (h : Holds w s u) (hs : Spelled w s.words u) (hneg : s.neg = false)
    (hc : Close w u d q) (hd : 0 < d) (hl : s.off + (digits w.base d).length + 1 ≤ s.d.length)
    (hstop : s.off + s.top ≤ s.stop) : ∃ s', divTake w (digits w.base d) (digits w.base (q * d)) q s =
      (u / d, s') ∧ Taken w s s' (u % d) := by
  have h1 := w.one_lt_base
  have htl : (digits w.base (q * d)).length ≤ (digits w.base d).length + 1 := by
    apply (Nat.digits_length_le_iff h1 _).mpr
    rw [Nat.pow_succ, Nat.mul_comm]
    exact Nat.mul_lt_mul'' (Nat.lt_base_pow_length_digits h1) hc.word
  obtain ⟨hge, hlt⟩ := sub_written (m := q * d) h hs hneg (by omega)
  unfold divTake
  dsimp only
  generalize s.sub w (digits w.base (q * d)) = s1 at hge hlt ⊢
  rcases Nat.lt_or_ge u (q * d) with hu | hu
  · obtain ⟨hw, hn⟩ := hlt hu
    have hup := hc.upper
    have hoff := hw.off
    -- one multiple too many
    obtain ⟨k, rfl⟩ : ∃ k, q = k + 1 := by
      refine ⟨q - 1, ?_⟩
      rcases Nat.eq_zero_or_pos q with h0 | h0
      · rw [h0, Nat.zero_mul] at hu
        omega
      · omega
    have hk := hc.word
    have hq : (k + 1 + w.base - 1) % w.base = k := by
      rw [show k + 1 + w.base - 1 = k + w.base by omega, Nat.add_mod_right, Nat.mod_eq_of_lt (by omega)]
    rw [Nat.succ_mul] at hu hup hw
    have hdiv : u / d = k := Nat.div_eq_of_lt_le (by omega) (by rw [Nat.succ_mul]; omega)
    have hmod := Nat.div_add_mod' u d
    rw [hdiv] at hmod
    obtain ⟨hh, hww⟩ := hw.withStop (s1.stop + s1.top - s.top)
    obtain ⟨ha, hn2⟩ := addBack_written (d := d) hh hww (by omega) (by
      show s1.off + _ ≤ s1.d.length
      rw [hoff, hw.length]
      omega)
    rw [if_pos hn, hq, hdiv]
    refine ⟨_, rfl, ?_⟩
    generalize Window.addBack w { s1 with stop := s1.stop + s1.top - s.top } (digits w.base d) = s2 at ha hn2 ⊢
    have ha1 : s2.off = s1.off := ha.off
    have ha2 : s2.d.length = s1.d.length := ha.length
    have ha3 : s2.d.take s1.off = s1.d.take s1.off := ha.low
    have ha4 : s2.stop = s1.stop + s1.top - s.top := ha.stop
    have hs4 := hw.stop
    obtain ⟨hf, hfw⟩ := ha.withStop (s2.stop + s2.top - s1.top)
    rw [show d - (k * d + d - u) = u % d by omega] at hf hfw
    refine ⟨hf, hfw, hn2, ha1.trans hoff, ha2.trans hw.length, ?_, ?_⟩
    · show s2.d.take s.off = _
      rw [← hw.low, ← hoff]
      exact ha3
    · show s2.off + s2.top ≤ s2.stop + s2.top - s1.top
      omega
  · obtain ⟨hw, hn⟩ := hge hu
    have hlow := hc.lower
    have hoff := hw.off
    have hs4 := hw.stop
    have hdiv : u / d = q := Nat.div_eq_of_lt_le hu hlow
    have hmod := Nat.div_add_mod' u d
    rw [hdiv] at hmod
    rw [if_neg (by rw [hn]; exact Bool.false_ne_true), hdiv]
    obtain ⟨hf, hfw⟩ := hw.withStop (s1.stop + s1.top - s.top)
    rw [show u - q * d = u % d by omega] at hf hfw
    refine ⟨_, rfl, hf, hfw, hn, hoff, hw.length, hw.low, ?_⟩
    show s1.off + s1.top ≤ s1.stop + s1.top - s.top
    omega

/-! ## a turn of the loop -/

/-- the divisor: it fills its highest word -/
structure Divisor (w : WordSize) (d k d1 d0 : Nat) : Prop where
  length : (digits w.base d).length = k
  pos : 0 < k
  top : d0 = d / w.base ^ (k - 1)
  norm : w.base ≤ 2 * d0
  second : d1 = if k = 1 then 0 else d / w.base ^ (k - 2) % w.base

/-- the window at the head of the loop: what is in it is less than the divisor -/
structure Slides (w : WordSize) (d : List Nat) (s : Window) (r : Nat) : Prop where
  holds : Holds w s r
  words : s.words = digits w.base r
  neg : s.neg = false
  length : s.d.length = d.length
  low : s.d.take s.off = d.take s.off
  stop : s.off + s.top ≤ s.stop

/-- the words above a window are zeros, so the number ends where `stop` says -/
theorem Slides.stopped {l : List Nat} {s : Window} {r : Nat} (hs : Slides w l s r) :
    ofDigits w.base (s.d.take s.stop) = ofDigits w.base s.d := by
  have hsplit := ofDigits_take_drop w.base s.d (k := min s.stop s.d.length) (Nat.min_le_right _ _)
  have htop := ofDigits_take_drop w.base (s.d.drop s.off) (k := s.top) (by
    rw [List.length_drop]
    have := hs.holds.fits
    omega)
  have hwords : ofDigits w.base ((s.d.drop s.off).take s.top) = r := hs.holds.words
  rw [hs.holds.value, hwords, List.drop_drop] at htop
  have hp : 0 < w.base ^ s.top := Nat.pow_pos (by have := w.one_lt_base; omega)
  have hz : ofDigits w.base (s.d.drop (s.off + s.top)) = 0 := by
    rcases Nat.eq_zero_or_pos (ofDigits w.base (s.d.drop (s.off + s.top))) with h0 | h0
    · exact h0
    · have := Nat.mul_pos hp h0
      omega
  have hzz : ofDigits w.base (s.d.drop (min s.stop s.d.length)) = 0 := by
    have hle : s.off + s.top ≤ min s.stop s.d.length := Nat.le_min.mpr ⟨hs.stop, hs.holds.fits⟩
    rw [← Nat.add_sub_cancel' hle, ← List.drop_drop, ofDigits_drop w.one_lt_base (hs.holds.below.drop _), hz,
      Nat.zero_div]
  rw [hzz, Nat.mul_zero, Nat.add_zero, ← List.take_eq_take_min] at hsplit
  exact hsplit.symm

section
variable {d k d1 d0 : Nat} (hd : Divisor w d k d1 d0)
include hd

theorem Divisor.bounds : 0 < d ∧ d < w.base ^ k ∧ d0 < w.base ∧ d1 < w.base ∧ 0 < d0 := by
  have h1 := w.one_lt_base
  have hlt : d < w.base ^ k := by
    rw [← hd.length]
    exact Nat.lt_base_pow_length_digits h1
  have hnorm := hd.norm
  have h0 : 0 < d0 := by omega
  have hk := hd.pos
  refine ⟨?_, hlt, ?_, ?_, h0⟩
  · rw [hd.top] at h0
    exact (Nat.div_pos_iff.mp h0).1.trans_le (Nat.div_pos_iff.mp h0).2
  · rw [hd.top]
    apply Nat.div_lt_of_lt_mul
    rw [← Nat.pow_succ, show (k - 1).succ = k by omega]
    exact hlt
  · rw [hd.second]
    split
    · omega
    · exact Nat.mod_lt _ (by omega)

/-- the words that are looked at are enough to estimate the digit -/
theorem digit_close {r x n2 : Nat} (hr : r < d) (hx : x < w.base) (hn2 : n2 < w.base)
    (h2 : k ≠ 1 → n2 = (x + w.base * r) / w.base ^ (k - 2) % w.base) :
    Close w (x + w.base * r) d (divDigit w d1 d0 ((x + w.base * r) / w.base ^ k % w.base)
      ((x + w.base * r) / w.base ^ (k - 1) % w.base) n2) := by
  have h1 := w.one_lt_base
  obtain ⟨hd0, hdk, hd0b, hd1b, hd0p⟩ := hd.bounds
  have hk := hd.pos
  have hud : x + w.base * r < w.base * d := by
    have := Nat.mul_le_mul_left w.base (Nat.succ_le_of_lt hr)
    rw [Nat.mul_succ] at this
    omega
  have hp : 0 < w.base ^ (k - 1) := Nat.pow_pos (by omega)
  have hpow : w.base ^ k = w.base ^ (k - 1) * w.base := by
    rw [← Nat.pow_succ]
    congr 1
    omega
  -- the highest word is that of the rest
  have htop : (x + w.base * r) / w.base ^ k = r / w.base ^ (k - 1) := by
    rw [hpow, Nat.mul_comm _ w.base, ← Nat.div_div_eq_div_mul, Nat.add_mul_div_left _ _ (by omega),
      Nat.div_eq_of_lt hx, Nat.zero_add]
  have hn0 : (x + w.base * r) / w.base ^ k ≤ d0 := by
    rw [htop, hd.top]
    exact Nat.div_le_div_right (Nat.le_of_lt hr)
  have hmod : (x + w.base * r) / w.base ^ k % w.base = (x + w.base * r) / w.base ^ k :=
    Nat.mod_eq_of_lt (by omega)
  have hsplit : (x + w.base * r) / w.base ^ (k - 1) =
      (x + w.base * r) / w.base ^ k * w.base + (x + w.base * r) / w.base ^ (k - 1) % w.base := by
    rw [hpow, ← Nat.div_div_eq_div_mul, Nat.div_add_mod']
  have hn1 := Nat.mod_lt ((x + w.base * r) / w.base ^ (k - 1)) (show 0 < w.base by omega)
  rw [hmod]
  generalize hn : (x + w.base * r) / w.base ^ k = n0 at *
  generalize hm : (x + w.base * r) / w.base ^ (k - 1) % w.base = n1 at *
  by_cases hk1 : k = 1
  · -- a divisor of one word: the window and the divisor are moved up a word
    have hd' : d = d0 := by
      rw [hd.top, hk1, Nat.sub_self, Nat.pow_zero, Nat.div_one]
    have hd1 : d1 = 0 := by
      rw [hd.second, if_pos hk1]
    rw [hk1, Nat.sub_self, Nat.pow_zero, Nat.div_one] at hsplit
    have hupper : Estimate.Upper w.base 1 ((x + w.base * r) * w.base + n2) (d * w.base) n2 n1 n0 d1 d0 := by
      refine ⟨⟨0, ?_, Nat.one_pos⟩, ⟨0, ?_, Nat.one_pos⟩, hd1b⟩
      · rw [Nat.mul_one, Nat.add_zero, ← hsplit]
      · rw [Nat.mul_one, Nat.add_zero, hd1, Nat.add_zero, hd']
    have hc := divDigit_close hupper hd0p hd0b hn2 hn1 hn0 hd.norm (by
      have := Nat.mul_le_mul_right w.base (Nat.succ_le_of_lt hud)
      rw [Nat.succ_mul, Nat.mul_assoc] at this
      omega)
    refine ⟨hc.word, ?_, ?_⟩
    · have hl := hc.lower
      rw [← Nat.mul_assoc] at hl
      exact Nat.lt_of_mul_lt_mul_right (Nat.lt_of_le_of_lt (Nat.le_add_right _ _) hl)
    · have hu := hc.upper
      rw [← Nat.mul_assoc, Nat.add_right_comm, ← Nat.add_mul] at hu
      by_contra hcon
      have := Nat.mul_le_mul_right w.base (Nat.succ_le_of_lt (Nat.lt_of_not_le hcon))
      rw [Nat.succ_mul] at this
      omega
  · have h2 := h2 hk1
    have hpow2 : w.base ^ (k - 1) = w.base ^ (k - 2) * w.base := by
      rw [← Nat.pow_succ]
      congr 1
      omega
    have hsplit2 : (x + w.base * r) / w.base ^ (k - 2) = (n0 * w.base + n1) * w.base + n2 := by
      rw [← hsplit, h2, hpow2, ← Nat.div_div_eq_div_mul, Nat.div_add_mod']
    have hdsplit : d / w.base ^ (k - 2) = d0 * w.base + d1 := by
      rw [hd.top, hd.second, if_neg hk1, hpow2, ← Nat.div_div_eq_div_mul, Nat.div_add_mod']
    have hp2 : 0 < w.base ^ (k - 2) := Nat.pow_pos (by omega)
    have hupper : Estimate.Upper w.base (w.base ^ (k - 2)) (x + w.base * r) d n2 n1 n0 d1 d0 := by
      refine ⟨⟨(x + w.base * r) % w.base ^ (k - 2), ?_, Nat.mod_lt _ hp2⟩,
        ⟨d % w.base ^ (k - 2), ?_, Nat.mod_lt _ hp2⟩, hd1b⟩
      · rw [← hsplit2, Nat.div_add_mod']
      · rw [← hdsplit, Nat.div_add_mod']
    exact divDigit_close hupper hd0p hd0b hn2 hn1 hn0 hd.norm hud

/-- **A turn of the loop**: the digit of the quotient, and the rest in the window. -/
theorem divStep_eq {l : List Nat} {s : Window} {r : Nat} (hs : Slides w l s r) (hr : r < d) (hoff : 2 ≤ s.off)
    (hfit : s.off + k ≤ l.length) : ∃ s', divStep w (digits w.base d) d1 d0 (s.off + k - 1) s =
      ((l.getD (s.off - 1) 0 + w.base * r) / d, s') ∧
    Slides w l s' ((l.getD (s.off - 1) 0 + w.base * r) % d) ∧ s'.off = s.off - 1 := by
  have h1 := w.one_lt_base
  obtain ⟨hd0, hdk, hd0b, hd1b, hd0p⟩ := hd.bounds
  have hk := hd.pos
  have hlen := hs.length
  have hhb := hs.holds.below
  -- the word below the window
  have hx : s.d.getD (s.off - 1) 0 = l.getD (s.off - 1) 0 := by
    rw [List.getD_eq_getElem?_getD, List.getD_eq_getElem?_getD, ← List.getElem?_take_of_lt (j := s.off) (by omega),
      hs.low, List.getElem?_take_of_lt (by omega)]
  have hxb : l.getD (s.off - 1) 0 < w.base := by
    rw [← hx]
    exact hhb.getD (by omega) _
  generalize l.getD (s.off - 1) 0 = x at hx hxb ⊢
  have hcons : s.d.drop (s.off - 1) = x :: s.d.drop s.off := by
    have hlt : s.off - 1 < s.d.length := by omega
    rw [List.drop_eq_getElem_cons hlt, show s.off - 1 + 1 = s.off by omega]
    rw [List.getD_eq_getElem?_getD, List.getElem?_eq_getElem hlt] at hx
    rw [← hx]
    rfl
  have hval : ofDigits w.base (s.d.drop (s.off - 1)) = x + w.base * r := by
    rw [hcons, Nat.ofDigits_cons, hs.holds.value]
  have hget (i : Nat) : s.d.getD (s.off - 1 + i) 0 = (x + w.base * r) / w.base ^ i % w.base := by
    rw [← hval, ← getD_eq h1 (hhb.drop _), List.getD_eq_getElem?_getD, List.getD_eq_getElem?_getD,
      List.getElem?_drop]
  have hwords : slice s.d (s.off - 1) (s.top + 1) = x :: digits w.base r := by
    unfold slice
    rw [hcons, List.take_succ_cons]
    exact congrArg (x :: ·) hs.words
  -- the window one word further down
  have hholds : Holds w { s with off := s.off - 1, top := s.top + 1 } (x + w.base * r) := by
    refine ⟨hhb, ?_, hval, ?_⟩
    · have := hs.holds.fits
      show s.off - 1 + (s.top + 1) ≤ s.d.length
      omega
    · show ofDigits w.base (slice s.d (s.off - 1) (s.top + 1)) = _
      rw [hwords, Nat.ofDigits_cons, Nat.ofDigits_digits]
  have hspell : Spelled w (Window.words { s with off := s.off - 1, top := s.top + 1 }) (x + w.base * r) := by
    show Spelled w (slice s.d (s.off - 1) (s.top + 1)) _
    rw [hwords]
    exact spelled_cons hxb
  have hclose := digit_close hd hr hxb (hhb.getD (by omega) (s.off + k - 1 - 2)) (by
    intro hk1
    rw [show s.off + k - 1 - 2 = s.off - 1 + (k - 2) by omega]
    exact hget _)
  rw [← hget, ← hget, show s.off - 1 + k = s.off + k - 1 by omega,
    show s.off - 1 + (k - 1) = s.off + k - 1 - 1 by omega] at hclose
  unfold divStep
  dsimp only
  generalize divDigit w d1 d0 (s.d.getD (s.off + k - 1) 0) (s.d.getD (s.off + k - 1 - 1) 0)
    (s.d.getD (s.off + k - 1 - 2) 0) = q at hclose ⊢
  have hm := mulWords_eq (digits_below w d) hclose.word
  have htmp : trim ((mulWords w (digits w.base d) q).1 ++ [(mulWords w (digits w.base d) q).2]) =
      digits w.base (q * d) := by
    rw [trim_eq_digits h1 (hm.below.append (Below.nil.cons hm.carry)), ofDigits_concat, hm.length, hm.value,
      Nat.ofDigits_digits, Nat.mul_comm]
  rw [htmp]
  have hstop := hs.stop
  obtain ⟨s', he, ht⟩ := divTake_eq hholds hspell hs.neg hclose hd0 (by
    rw [hd.length]
    show s.off - 1 + k + 1 ≤ s.d.length
    omega) (by
    show s.off - 1 + (s.top + 1) ≤ s.stop
    omega)
  have hoff' : s'.off = s.off - 1 := ht.off
  refine ⟨s', he, ⟨ht.holds, ht.words, ht.neg, ?_, ?_, ht.stop⟩, hoff'⟩
  · exact ht.length.trans hlen
  · have hlow : s'.d.take (s.off - 1) = s.d.take (s.off - 1) := ht.low
    have := congrArg (List.take (s.off - 1)) hs.low
    rw [List.take_take, List.take_take, Nat.min_eq_left (by omega)] at this
    rw [hoff', hlow, this]

/-- where the loop is: the digits found so far and the rest in the window are those of the upper words -/
structure Dividing (w : WordSize) (l : List Nat) (d k n : Nat) (res : List Nat) (s : Window) (r : Nat) : Prop where
  slides : Slides w l s r
  less : r < d
  off : s.off = n + 1
  fit : s.off + k ≤ l.length
  below : Below w.base res
  divided : ofDigits w.base (l.drop s.off) = ofDigits w.base res * d + r

theorem divStep_dividing {l res : List Nat} {n r : Nat} {s : Window} (h : Dividing w l d k (n + 1) res s r) :
    ∃ q s' r', divStep w (digits w.base d) d1 d0 (s.off + k - 1) s = (q, s') ∧
      Dividing w l d k n (q :: res) s' r' ∧ s'.off + 1 = s.off := by
  obtain ⟨hd0, -⟩ := hd.bounds
  have hoff := h.off
  have hfit := h.fit
  have hless := h.less
  have hk := hd.pos
  obtain ⟨s', he, hs', ho'⟩ := divStep_eq hd h.slides hless (by omega) hfit
  have hxb : l.getD (s.off - 1) 0 < w.base := by
    have hb := h.slides.holds.below.getD (show 0 < w.base by have := w.one_lt_base; omega) (s.off - 1)
    have hlow := congrArg (fun t => t.getD (s.off - 1) 0) h.slides.low
    simp only [List.getD_eq_getElem?_getD] at hlow hb ⊢
    rw [List.getElem?_take_of_lt (by omega), List.getElem?_take_of_lt (by omega)] at hlow
    rwa [← hlow]
  have hdrop : ofDigits w.base (l.drop (s.off - 1)) =
      l.getD (s.off - 1) 0 + w.base * ofDigits w.base (l.drop s.off) := by
    have hlt : s.off - 1 < l.length := by omega
    rw [List.drop_eq_getElem_cons hlt, Nat.ofDigits_cons, show s.off - 1 + 1 = s.off by omega,
      List.getD_eq_getElem?_getD, List.getElem?_eq_getElem hlt]
    rfl
  have hu := Nat.div_add_mod' (l.getD (s.off - 1) 0 + w.base * r) d
  have hq : (l.getD (s.off - 1) 0 + w.base * r) / d < w.base := by
    apply Nat.div_lt_of_lt_mul
    have := Nat.mul_le_mul_left w.base (Nat.succ_le_of_lt hless)
    rw [Nat.mul_succ, Nat.mul_comm w.base d] at this
    omega
  refine ⟨_, s', _, he, ⟨hs', Nat.mod_lt _ hd0, by omega, by omega, h.below.cons hq, ?_⟩, by omega⟩
  rw [ho', hdrop, h.divided, Nat.ofDigits_cons]
  generalize (l.getD (s.off - 1) 0 + w.base * r) / d = q at hu ⊢
  generalize (l.getD (s.off - 1) 0 + w.base * r) % d = r' at hu ⊢
  rw [Nat.mul_add, ← Nat.add_assoc, Nat.add_right_comm, ← hu]
  ring

/-- **A run of the loop**: it finds as many digits as there are words below the window. -/
theorem divLoop_eq {l : List Nat} (n : Nat) : ∀ {res : List Nat} {s : Window} {r : Nat},
    Dividing w l d k n res s r → ∃ res' s' r', divLoop w (digits w.base d) d1 d0 n (s.off + k - 1) res s = (res', s') ∧
      Dividing w l d k 0 res' s' r' ∧ res'.length = res.length + n := by
  induction n with
  | zero =>
    intro res s r h
    exact ⟨res, s, r, rfl, h, rfl⟩
  | succ n ih =>
    intro res s r h
    obtain ⟨q, s1, r1, he, h1, ho⟩ := divStep_dividing hd h
    obtain ⟨res', s', r', he', h', hl⟩ := ih h1
    refine ⟨res', s', r', ?_, h', ?_⟩
    · unfold divLoop
      dsimp only
      rw [he]
      have hk := hd.pos
      rw [show s.off + k - 1 - 1 = s1.off + k - 1 by omega]
      exact he'
    · rw [hl, List.length_cons]
      omega

end

end Bn

namespace BigNum
open Nat (ofDigits digits)
open Limbs Img Bn

structure Divided where
  quot : BigNum
  rem : BigNum

/-- `BN_is_zero` -/
def isZero (a : BigNum) : Bool := a.d.length = 0 ∨ a.d = [0]

/-- `BN_div`; `none` is its error -/
def div (w : WordSize) (num divisor : BigNum) : Option Divided :=
  if isZero divisor then none
  else if ucmp num divisor = .lt then some ⟨zero, num⟩
  else
    let norm_shift := w.bits2 - numBits w divisor % w.bits2
    let sdiv := (lshift w divisor norm_shift).d
    let norm_shift := norm_shift + w.bits2
    let snum := (lshift w num norm_shift).d
    let div_n := sdiv.length
    let num_n := snum.length
    let loop := num_n - div_n
    let d0 := sdiv.getD (div_n - 1) 0
    let d1 := if div_n = 1 then 0 else sdiv.getD (div_n - 2) 0
    let s : Window := ⟨snum, loop, div_n, false, num_n⟩
    let t : List Nat × Window :=
      if ucmpWords s.words sdiv ≠ .lt then ([1], s.write (usubWords w s.words sdiv) s.neg) else ([], s)
    let r := divLoop w sdiv d1 d0 (loop - 1) (num_n - 1) t.1 t.2
    some ⟨⟨r.1, num.neg != divisor.neg⟩,
      { rshift w ⟨r.2.d.take r.2.stop, false⟩ norm_shift with neg := num.neg }⟩

/-- a number of three words by one of two -/
example : (div .thirtyTwoBit ⟨[5, 0, 4294967295], false⟩ ⟨[1, 4294967295], false⟩).map
    (fun r => (r.quot.d, r.rem.d)) = some ([4294967295], [6, 4294967294]) := by decide +kernel

section
variable {w : WordSize} {a b : BigNum} {x y : Int} {m n : Nat}

theorem isZero_eq (ha : Is w a x) : isZero a = decide (x = 0) := by
  have h1 := w.one_lt_base
  unfold isZero
  rw [ha.d, decide_eq_decide]
  constructor
  · rintro (h | h)
    · exact Int.natAbs_eq_zero.mp (Nat.digits_eq_nil_iff_eq_zero.mp (List.length_eq_zero_iff.mp h))
    · have h0 := digits_top w x.natAbs
      rw [h] at h0
      exact absurd rfl (h0 (List.cons_ne_nil _ _))
  · rintro rfl
    exact Or.inl (congrArg List.length (Nat.digits_zero _))

/-- what the first shift does to the divisor -/
theorem normalised (hb : Is w b y) (h0 : y ≠ 0) {s : Nat} (hs : s = w.bits2 - numBits w b % w.bits2)
    {l : List Nat} (hl : l = (lshift w b s).d) :
    l = digits w.base (y.natAbs * 2 ^ s) ∧ Divisor w (y.natAbs * 2 ^ s) l.length
      (if l.length = 1 then 0 else l.getD (l.length - 2) 0) (l.getD (l.length - 1) 0) := by
  have h1 := w.one_lt_base
  have hb2 : 0 < w.bits2 := by cases w <;> decide
  have hdig : l = digits w.base (y.natAbs * 2 ^ s) := by
    rw [hl, (lshift_is hb s).d, Int.natAbs_mul, Int.natAbs_pow]
    rfl
  refine ⟨hdig, ?_⟩
  have hy : 0 < y.natAbs := Int.natAbs_pos.mpr h0
  have hnb := numBits_eq hb
  have hsz : 0 < y.natAbs.size := Nat.size_pos.mpr hy
  -- the bits fill whole words
  obtain ⟨k, hk⟩ : ∃ k, y.natAbs.size + s = w.bits2 * (k + 1) := by
    rw [hnb] at hs
    have hm := Nat.mod_lt y.natAbs.size hb2
    have hd := Nat.div_add_mod y.natAbs.size w.bits2
    refine ⟨y.natAbs.size / w.bits2, ?_⟩
    rw [Nat.mul_succ]
    omega
  have hpow (j : Nat) : w.base ^ j = 2 ^ (w.bits2 * j) := (Nat.pow_mul _ _ _).symm
  have hlo : 2 ^ (y.natAbs.size + s - 1) ≤ y.natAbs * 2 ^ s := by
    rw [show y.natAbs.size + s - 1 = y.natAbs.size - 1 + s by omega, Nat.pow_add]
    exact Nat.mul_le_mul_right _ (Nat.lt_size.mp (by omega))
  have hhi : y.natAbs * 2 ^ s < 2 ^ (y.natAbs.size + s) := by
    rw [Nat.pow_add]
    exact Nat.mul_lt_mul_of_pos_right (Nat.lt_size_self _) (Nat.two_pow_pos s)
  rw [hk] at hlo hhi
  generalize y.natAbs * 2 ^ s = d at *
  have hk1 : w.bits2 * (k + 1) - 1 = w.bits2 * k + (w.bits2 - 1) := by
    rw [Nat.mul_succ]
    omega
  have hlen : l.length = k + 1 := by
    rw [hdig]
    apply digits_length_eq h1
    · rw [hpow]
      exact Nat.le_trans (Nat.pow_le_pow_right (by omega) (by omega)) hlo
    · rwa [hpow]
  have hbel : Below w.base l := by
    rw [hdig]
    exact digits_below w d
  have hval : ofDigits w.base l = d := by rw [hdig, Nat.ofDigits_digits]
  have hget (i : Nat) : l.getD i 0 = d / w.base ^ i % w.base := by rw [getD_eq h1 hbel, hval]
  have htop : d / w.base ^ k < w.base := by
    apply Nat.div_lt_of_lt_mul
    rwa [← Nat.pow_succ, hpow]
  rw [hlen]
  refine ⟨by rw [← hdig, hlen], Nat.succ_pos k, ?_, ?_, ?_⟩
  · rw [hget, Nat.add_sub_cancel, Nat.mod_eq_of_lt htop]
  · rw [hget, Nat.add_sub_cancel, Nat.mod_eq_of_lt htop]
    have hle : 2 ^ (w.bits2 - 1) ≤ d / w.base ^ k := by
      apply (Nat.le_div_iff_mul_le (Nat.pow_pos (by omega))).mpr
      rw [hpow, ← Nat.pow_add, Nat.add_comm, ← hk1]
      exact hlo
    have hb : w.base = 2 * 2 ^ (w.bits2 - 1) := by
      rw [← Nat.pow_succ', show (w.bits2 - 1).succ = w.bits2 by omega]
      rfl
    omega
  · split
    · rfl
    · exact hget _

/-- the window before the loop: the divisor is in it once at the most -/
theorem first_dividing {d k d1 d0 n t : Nat} {l : List Nat} (hd : Divisor w d k d1 d0) (hl : l = digits w.base t)
    (hlen : l.length = n + 1 + k) : ∃ res s r, Dividing w l d k n res s r ∧
      (res = [] ∨ res = [1] ∧ w.base ^ (n + 1) * d ≤ t) ∧
      ((if ucmpWords (slice l (n + 1) k) (digits w.base d) ≠ .lt
        then ([1], (⟨l, n + 1, k, false, n + 1 + k⟩ : Window).write
          (usubWords w (slice l (n + 1) k) (digits w.base d)) false)
        else ([], ⟨l, n + 1, k, false, n + 1 + k⟩)) = (res, s)) := by
  have h1 := w.one_lt_base
  obtain ⟨hd0, hdk, -⟩ := hd.bounds
  have hk := hd.pos
  have hbel : Below w.base l := by
    rw [hl]
    exact digits_below w t
  have hval : ofDigits w.base (l.drop (n + 1)) = t / w.base ^ (n + 1) := by
    rw [ofDigits_drop h1 hbel, hl, Nat.ofDigits_digits]
  have hslice : slice l (n + 1) k = l.drop (n + 1) := List.take_of_length_le (by rw [List.length_drop]; omega)
  generalize hv : t / w.base ^ (n + 1) = v at hval
  -- the highest word of the window is that of the dividend
  have hdig : l.drop (n + 1) = digits w.base v := by
    rw [← hval]
    apply eq_digits h1 (hbel.drop _)
    intro hne
    rw [List.getLast_drop hne]
    have htop := digits_top w t
    rw [← hl] at htop
    exact htop _
  have hvk : v < w.base ^ k := by
    rw [← hval]
    have := Below.lt h1 (hbel.drop (n + 1))
    rwa [List.length_drop, show l.length - (n + 1) = k by omega] at this
  have hvd : v < d + d := by
    have htop : w.base ^ (k - 1) * d0 ≤ d := by
      rw [hd.top]
      exact Nat.mul_div_le _ _
    have hnorm := Nat.mul_le_mul_left (w.base ^ (k - 1)) hd.norm
    rw [← Nat.pow_succ, show (k - 1).succ = k by omega, Nat.two_mul, Nat.mul_add] at hnorm
    omega
  have hholds : Holds w ⟨l, n + 1, k, false, n + 1 + k⟩ v := by
    refine ⟨hbel, Nat.le_of_eq hlen.symm, hval, ?_⟩
    show ofDigits w.base (slice l (n + 1) k) = v
    rw [hslice, hval]
  have hcmp : compare v d ≠ .lt ↔ ¬v < d := not_congr Nat.compare_eq_lt
  rw [hslice, hdig, ucmpWords_eq]
  by_cases hlt : v < d
  · rw [if_neg fun h => hcmp.mp h hlt]
    refine ⟨[], _, v, ⟨⟨hholds, ?_, rfl, rfl, rfl, Nat.le_refl _⟩, hlt, rfl, Nat.le_of_eq hlen.symm, Below.nil, ?_⟩,
      Or.inl rfl, rfl⟩
    · show slice l (n + 1) k = _
      rw [hslice, hdig]
    · rw [hval, Nat.ofDigits_nil, Nat.zero_mul, Nat.zero_add]
  · rw [if_pos (hcmp.mpr hlt)]
    obtain ⟨h2, h3, h4⟩ := usubWords_eq (digits_below w v) (digits_below w d) (digits_length_mono _ (by omega)) (by
      rw [Nat.ofDigits_digits, Nat.ofDigits_digits]
      omega)
    have hvl : (digits w.base v).length = k := by
      rw [← hdig, List.length_drop]
      omega
    have hw := write_written hholds h2 (by rw [h3, hvl]; exact hvk) (by
      show n + 1 + _ ≤ l.length
      omega) false
    rw [h4, Nat.ofDigits_digits, Nat.ofDigits_digits] at hw
    have htr := trim_length_le (usubWords w (digits w.base v) (digits w.base d))
    refine ⟨[1], _, v - d, ⟨⟨hw.holds, hw.words, rfl, hw.length, hw.low, ?_⟩, by omega, rfl,
      Nat.le_of_eq hlen.symm, Below.nil.cons h1, ?_⟩, Or.inr ⟨rfl, ?_⟩, rfl⟩
    · show n + 1 + (trim _).length ≤ n + 1 + k
      omega
    · show ofDigits w.base (l.drop (n + 1)) = _
      rw [hval, Nat.ofDigits_singleton]
      omega
    · rw [← hv] at hlt
      calc w.base ^ (n + 1) * d ≤ w.base ^ (n + 1) * (t / w.base ^ (n + 1)) :=
            Nat.mul_le_mul_left _ (Nat.le_of_not_lt hlt)
        _ ≤ t := Nat.mul_div_le _ _

/-- a quotient with no more digits than there are turns -/
theorem digits_quotient_le {d k d1 d0 n t : Nat} (hd : Divisor w d k d1 d0) (hle : d ≤ t)
    (hlen : (digits w.base t).length = n + (digits w.base d).length) : w.base ^ (n - 1) * d ≤ t := by
  have h1 := w.one_lt_base
  obtain ⟨hd0, hdk, -⟩ := hd.bounds
  rcases Nat.eq_zero_or_pos n with rfl | hn
  · rwa [Nat.zero_sub, Nat.pow_zero, Nat.one_mul]
  · calc w.base ^ (n - 1) * d ≤ w.base ^ (n - 1) * w.base ^ k := Nat.mul_le_mul_left _ (Nat.le_of_lt hdk)
      _ = w.base ^ ((digits w.base t).length - 1) := by
          rw [← Nat.pow_add, hlen, hd.length]
          congr 1
          omega
      _ ≤ t := le_digits h1 (by omega)

/-- **The quotient and the rest**, of numbers of either sign; the rest has the sign of the dividend. -/
theorem div_is (ha : Is w a x) (hb : Is w b y) (h0 : y ≠ 0) : ∃ r, div w a b = some r ∧
    r.quot.d = digits w.base (x.natAbs / y.natAbs) ∧ r.rem.d = digits w.base (x.natAbs % y.natAbs) ∧
    r.rem.neg = a.neg := by
  have h1 := w.one_lt_base
  have hy : 0 < y.natAbs := Int.natAbs_pos.mpr h0
  unfold div
  rw [isZero_eq hb, decide_eq_false h0, if_neg Bool.false_ne_true, ucmp_eq ha hb]
  by_cases hlt : x.natAbs < y.natAbs
  · rw [if_pos (Nat.compare_eq_lt.mpr hlt)]
    refine ⟨_, rfl, ?_, ?_, rfl⟩
    · show [] = _
      rw [Nat.div_eq_of_lt hlt, Nat.digits_zero]
    · show a.d = _
      rw [Nat.mod_eq_of_lt hlt, ha.d]
  · rw [if_neg fun h => hlt (Nat.compare_eq_lt.mp h)]
    dsimp only
    generalize hs : w.bits2 - numBits w b % w.bits2 = s
    generalize hsd : (lshift w b s).d = sd
    generalize hsn : (lshift w a (s + w.bits2)).d = sn
    obtain ⟨hdd, hd⟩ := normalised hb h0 hs.symm hsd.symm
    generalize hdv : y.natAbs * 2 ^ s = d at hdd hd
    have hdp : 0 < d := by
      rw [← hdv]
      exact Nat.mul_pos hy (Nat.two_pow_pos s)
    generalize ht : x.natAbs * 2 ^ s = t
    have htd : d ≤ t := by
      rw [← hdv, ← ht]
      exact Nat.mul_le_mul_right _ (Nat.le_of_not_lt hlt)
    have hnd : sn = digits w.base (w.base * t) := by
      rw [← hsn, (lshift_is ha _).d, Int.natAbs_mul, Int.natAbs_pow, ← ht]
      congr 1
      show x.natAbs * 2 ^ (s + w.bits2) = 2 ^ w.bits2 * (x.natAbs * 2 ^ s)
      rw [Nat.pow_add]
      ring
    -- a word more than the divisor has
    have hcons : sn = 0 :: digits w.base t := by
      rw [hnd, ← Nat.zero_add (w.base * t), Nat.digits_add _ h1 0 t (by omega) (Or.inr (by omega))]
    have hge : sd.length + 1 ≤ sn.length := by
      rw [hcons, List.length_cons, hdd]
      exact Nat.succ_le_succ (digits_length_mono _ htd)
    obtain ⟨n, hn⟩ : ∃ n, sn.length - sd.length = n + 1 := ⟨sn.length - sd.length - 1, by omega⟩
    have hlen : sn.length = n + 1 + sd.length := by omega
    have hk := hd.pos
    obtain ⟨res, s0, r0, hdiv, hres, hif⟩ := first_dividing hd hnd hlen
    have hoff := hdiv.off
    obtain ⟨res', s', r', hloop, hend, hl'⟩ := divLoop_eq hd n hdiv
    rw [hn, hlen]
    rw [← hdd] at hif hloop
    unfold Window.words
    dsimp only
    rw [hif]
    dsimp only
    rw [Nat.add_sub_cancel, show n + 1 + sd.length - 1 = s0.off + sd.length - 1 by omega, hloop]
    -- what the loop has divided
    have hdrop : ofDigits w.base (sn.drop s'.off) = t := by
      rw [hend.off, hcons, List.drop_succ_cons, List.drop_zero, Nat.ofDigits_digits]
    have hsum := hend.divided
    rw [hdrop] at hsum
    have hrd := hend.less
    have hquot : x.natAbs / y.natAbs = ofDigits w.base res' := by
      rw [← Nat.mul_div_mul_right _ _ (Nat.two_pow_pos s), ht, hdv, hsum]
      exact Nat.div_eq_of_lt_le (by omega) (by rw [Nat.succ_mul]; omega)
    have hrest : x.natAbs % y.natAbs * 2 ^ s = r' := by
      rw [← Nat.mul_mod_mul_right, ht, hdv, hsum, Nat.mul_add_mod', Nat.mod_eq_of_lt hrd]
    refine ⟨_, rfl, ?_, ?_, rfl⟩
    · show res' = _
      rw [hquot]
      apply eq_digits h1 hend.below
      apply top_of_le h1 hend.below
      rw [← hquot, ← Nat.mul_div_mul_right _ _ (Nat.two_pow_pos s), ht, hdv]
      apply (Nat.le_div_iff_mul_le hdp).mpr
      rcases hres with rfl | ⟨rfl, hbig⟩
      · rw [hl', List.length_nil, Nat.zero_add]
        exact digits_quotient_le hd htd (by
          rw [← hdd]
          rw [hcons, List.length_cons] at hlen
          omega)
      · rw [hl', List.length_singleton, Nat.add_sub_cancel_left]
        rw [Nat.pow_succ, Nat.mul_right_comm, Nat.mul_comm] at hbig
        exact Nat.le_of_mul_le_mul_left hbig (by omega)
    · show (rshift w ⟨s'.d.take s'.stop, false⟩ (s + w.bits2)).d = _
      rw [(rshift_below (hend.slides.holds.below.take _) _).d, hend.slides.stopped, Int.natAbs_natCast]
      congr 1
      have hsplit := ofDigits_take_drop w.base s'.d (k := s'.off) (by
        have := hend.slides.holds.fits
        omega)
      rw [hend.slides.holds.value, hend.off, Nat.zero_add, Nat.pow_one] at hsplit
      have hlow : ofDigits w.base (s'.d.take 1) < w.base := by
        have := Below.lt h1 (hend.slides.holds.below.take 1)
        exact Nat.lt_of_lt_of_le this (Nat.le_trans (Nat.pow_le_pow_right (by omega) (List.length_take_le _ _))
          (Nat.le_of_eq (Nat.pow_one _)))
      rw [hsplit, Nat.add_comm s, Nat.pow_add, ← Nat.div_div_eq_div_mul]
      show (_ + w.base * r') / w.base / _ = _
      rw [Nat.add_mul_div_left _ _ (by omega), Nat.div_eq_of_lt hlow, Nat.zero_add, ← hrest,
        Nat.mul_div_cancel _ (Nat.two_pow_pos s)]

/-- the sign of a quotient; it is that of `zero` where the dividend is the smaller number -/
theorem div_neg (ha : Is w a x) (hb : Is w b y) (h0 : y ≠ 0) {r : Divided} (hr : div w a b = some r) :
    r.quot.neg = if x.natAbs < y.natAbs then false else a.neg != b.neg := by
  unfold div at hr
  rw [isZero_eq hb, decide_eq_false h0, if_neg Bool.false_ne_true, ucmp_eq ha hb] at hr
  by_cases hlt : x.natAbs < y.natAbs
  · rw [if_pos (Nat.compare_eq_lt.mpr hlt)] at hr
    rw [if_pos hlt, ← Option.some.inj hr]
    rfl
  · rw [if_neg fun h => hlt (Nat.compare_eq_lt.mp h)] at hr
    rw [if_neg hlt, ← Option.some.inj hr]

/-- **A product divided by one of its factors** is the other one, and nothing is left. -/
theorem quot_of_product (ha : Is w a x) (hb : Is w b y) (h0 : y ≠ 0) :
    ∃ r, div w (mul w a b) b = some r ∧ r.quot = a ∧ r.rem.d = [] := by
  have hy : 0 < y.natAbs := Int.natAbs_pos.mpr h0
  have hm := mul_is ha hb
  obtain ⟨r, hr, hq, hd, -⟩ := div_is hm hb h0
  have hneg := div_neg hm hb h0 hr
  rw [Int.natAbs_mul, Nat.mul_div_cancel _ hy] at hq
  rw [Int.natAbs_mul, Nat.mul_mod_left, Nat.digits_zero] at hd
  refine ⟨r, hr, (show Is w r.quot x from ⟨hq, ?_⟩).unique ha, hd⟩
  rw [hneg, hm.neg, hb.neg, Int.natAbs_mul]
  rcases Int.lt_trichotomy x 0 with hx | rfl | hx
  · have hle : ¬x.natAbs * y.natAbs < y.natAbs :=
      Nat.not_lt.mpr (Nat.le_mul_of_pos_left _ (Int.natAbs_pos.mpr (by omega)))
    rw [if_neg hle, decide_eq_true hx]
    rcases Int.lt_or_lt_of_ne h0 with hy | hy
    · rw [decide_eq_true hy, decide_eq_false (Int.not_lt.mpr (Int.le_of_lt (Int.mul_pos_of_neg_of_neg hx hy)))]
      rfl
    · rw [decide_eq_false (Int.not_lt.mpr (Int.le_of_lt hy)), decide_eq_true (Int.mul_neg_of_neg_of_pos hx hy)]
      rfl
  · rw [Int.natAbs_zero, Nat.zero_mul, if_pos hy]
    rfl
  · have hle : ¬x.natAbs * y.natAbs < y.natAbs :=
      Nat.not_lt.mpr (Nat.le_mul_of_pos_left _ (Int.natAbs_pos.mpr (by omega)))
    rw [if_neg hle, decide_eq_false (Int.not_lt.mpr (Int.le_of_lt hx))]
    rcases Int.lt_or_lt_of_ne h0 with hy | hy
    · rw [decide_eq_true hy, decide_eq_true (Int.mul_neg_of_pos_of_neg hx hy)]
      rfl
    · rw [decide_eq_false (Int.not_lt.mpr (Int.le_of_lt hy)),
        decide_eq_false (Int.not_lt.mpr (Int.le_of_lt (Int.mul_pos hx hy)))]
      rfl

theorem quot_of_product_signed : ∃ r,
    div .thirtyTwoBit (mul .thirtyTwoBit ⟨[5, 0, 7], true⟩ ⟨[1, 4294967295], true⟩) ⟨[1, 4294967295], true⟩ = some r ∧
    r.quot = ⟨[5, 0, 7], true⟩ ∧ r.rem.d = [] :=
  quot_of_product (w := .thirtyTwoBit) (x := -(5 + 7 * 4294967296 ^ 2 : Nat)) (y := -(1 + 4294967295 * 4294967296 : Nat))
    ⟨by decide +kernel, rfl⟩ ⟨by decide +kernel, rfl⟩ (by decide)

/-- **The bytes of a quotient and of a rest**, whatever the size of a word. -/
theorem div_bytes (w : WordSize) (s t : List UInt8) (h0 : Bits.ofBytes t ≠ 0) : ∃ r,
    div w (bin2bn w s) (bin2bn w t) = some r ∧
    bn2bin w r.quot = Bits.toBytes (((Bits.ofBytes s / Bits.ofBytes t).size + 7) / 8)
      (Bits.ofBytes s / Bits.ofBytes t) ∧
    bn2bin w r.rem = Bits.toBytes (((Bits.ofBytes s % Bits.ofBytes t).size + 7) / 8)
      (Bits.ofBytes s % Bits.ofBytes t) := by
  obtain ⟨r, hr, hq, hd, -⟩ := div_is (bin2bn_is w s) (bin2bn_is w t) (by omega)
  refine ⟨r, hr, ?_, ?_⟩
  · exact bn2bin_eq (a := ⟨r.quot.d, false⟩) (is_nat hq)
  · exact bn2bin_eq (a := ⟨r.rem.d, false⟩) (is_nat hd)

theorem div_bytes_three : ∃ r, div .thirtyTwoBit (bin2bn .thirtyTwoBit [255, 0, 0, 0, 7]) (bin2bn .thirtyTwoBit [3, 0])
      = some r ∧
    bn2bin .thirtyTwoBit r.quot = Bits.toBytes (((Bits.ofBytes [255, 0, 0, 0, 7] / Bits.ofBytes [3, 0]).size + 7) / 8)
      (Bits.ofBytes [255, 0, 0, 0, 7] / Bits.ofBytes [3, 0]) ∧
    bn2bin .thirtyTwoBit r.rem = Bits.toBytes (((Bits.ofBytes [255, 0, 0, 0, 7] % Bits.ofBytes [3, 0]).size + 7) / 8)
      (Bits.ofBytes [255, 0, 0, 0, 7] % Bits.ofBytes [3, 0]) :=
  div_bytes .thirtyTwoBit [255, 0, 0, 0, 7] [3, 0] (by decide)

end

end BigNum
