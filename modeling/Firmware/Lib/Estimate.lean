import Mathlib.Tactic.Ring

/-!
# Estimates of a quotient digit

A digit of a quotient is estimated from the upper three digits of the dividend and the upper two of
the divisor.

* `Upper`         a dividend and a divisor by their upper digits;
* `lt_of_test`    an estimate that fails the test of the upper digits is too large;
* `le_of_test`    one that passes is too large by one at most;
* `le_of_top`     so is the largest digit, where the upper digits are equal.
-/

set_option linter.unusedVariables false

namespace Estimate

/-- `u` and `d` by their upper digits; `p` is the weight of the lowest of them -/
structure Upper (b p u d n2 n1 n0 d1 d0 : Nat) : Prop where
  dividend : ∃ r, u = ((n0 * b + n1) * b + n2) * p + r ∧ r < p
  divisor : ∃ r, d = (d0 * b + d1) * p + r ∧ r < p
  second : d1 < b

variable {b p u d n2 n1 n0 d1 d0 q : Nat} (h : Upper b p u d n2 n1 n0 d1 d0)
include h

theorem lt_of_test (ht : (n0 * b + n1) * b + n2 < q * (d0 * b + d1)) : u < q * d := by
  obtain ⟨r, hu, hr⟩ := h.dividend
  obtain ⟨t, hd, -⟩ := h.divisor
  calc u < ((n0 * b + n1) * b + n2) * p + p := by
        rw [hu]
        exact Nat.add_lt_add_left hr _
    _ = ((n0 * b + n1) * b + n2 + 1) * p := (Nat.succ_mul _ _).symm
    _ ≤ q * (d0 * b + d1) * p := Nat.mul_le_mul_right p ht
    _ = q * ((d0 * b + d1) * p) := Nat.mul_assoc _ _ _
    _ ≤ q * d := by
      rw [hd]
      exact Nat.mul_le_mul_left q (Nat.le_add_right _ _)

theorem le_of_test (h0 : 0 < d0) (hq : q ≤ b) (ht : q * (d0 * b + d1) ≤ (n0 * b + n1) * b + n2) :
    q * d ≤ u + d := by
  obtain ⟨r, hu, -⟩ := h.dividend
  obtain ⟨t, hd, ht'⟩ := h.divisor
  have hbp : b * p ≤ d := by
    rw [hd]
    calc b * p ≤ d0 * b * p := Nat.mul_le_mul_right p (Nat.le_mul_of_pos_left b h0)
      _ ≤ (d0 * b + d1) * p := Nat.mul_le_mul_right p (Nat.le_add_right _ _)
      _ ≤ (d0 * b + d1) * p + t := Nat.le_add_right _ _
  calc q * d = q * (d0 * b + d1) * p + q * t := by
        rw [hd]
        ring
    _ ≤ ((n0 * b + n1) * b + n2) * p + b * p :=
      Nat.add_le_add (Nat.mul_le_mul_right p ht) (Nat.mul_le_mul hq (Nat.le_of_lt ht'))
    _ ≤ u + d := Nat.add_le_add (by rw [hu]; exact Nat.le_add_right _ _) hbp

theorem le_of_top (hn : n0 = d0) (hb : b ≤ 2 * d0 + 2) : (b - 1) * d ≤ u + d := by
  obtain ⟨r, hu, -⟩ := h.dividend
  obtain ⟨t, hd, ht⟩ := h.divisor
  -- `d` is less than the next multiple of the weight of its upper digit
  have hlt : d ≤ (d0 + 1) * b * p := by
    rw [hd]
    calc (d0 * b + d1) * p + t ≤ (d0 * b + d1) * p + p := Nat.add_le_add_left (Nat.le_of_lt ht) _
      _ = (d0 * b + d1 + 1) * p := (Nat.succ_mul _ _).symm
      _ ≤ (d0 * b + b) * p := Nat.mul_le_mul_right p (Nat.add_le_add_left h.second _)
      _ = (d0 + 1) * b * p := by ring
  have hle : d0 * b * b * p ≤ u := by
    rw [hu, hn]
    calc d0 * b * b * p ≤ ((d0 * b + n1) * b + n2) * p := Nat.mul_le_mul_right p (by
          rw [Nat.add_mul]
          omega)
      _ ≤ _ := Nat.le_add_right _ _
  have hd0 : (b - 2) * (d0 + 1) ≤ d0 * b := by
    obtain ⟨k, hk⟩ : ∃ k, b - 2 = k := ⟨_, rfl⟩
    rw [hk]
    rcases Nat.lt_or_ge b 2 with hb2 | hb2
    · rw [show k = 0 by omega, Nat.zero_mul]
      exact Nat.zero_le _
    · rw [show b = k + 2 by omega, Nat.mul_add, Nat.mul_add, Nat.mul_comm k d0]
      omega
  have hstep : (b - 2) * d ≤ u := by
    calc (b - 2) * d ≤ (b - 2) * ((d0 + 1) * b * p) := Nat.mul_le_mul_left _ hlt
      _ = (b - 2) * (d0 + 1) * (b * p) := by ring
      _ ≤ d0 * b * (b * p) := Nat.mul_le_mul_right _ hd0
      _ = d0 * b * b * p := by ring
      _ ≤ u := hle
  calc (b - 1) * d ≤ (b - 2 + 1) * d := Nat.mul_le_mul_right d (by omega)
    _ = (b - 2) * d + d := Nat.succ_mul _ _
    _ ≤ u + d := Nat.add_le_add_right hstep d

end Estimate
