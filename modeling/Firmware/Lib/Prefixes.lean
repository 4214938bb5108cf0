import Mathlib.Order.Bounds.Basic
import Mathlib.Order.Interval.Set.Defs
import Mathlib.Data.Nat.Bitwise

/-!
# Prefixes

The numbers below `2 ^ w` with the same first `p` bits.

* `block w p a`        the numbers that have their first `p` of `w` bits in common with `a`;
* `block_eq_Icc`       an interval, from `lowest` to `highest`;
* `block_subset_iff`   a block lies in another one with fewer bits in common;
* `keep`, `fill`       masks of low bits lead to the ends of a block.
-/

namespace Prefixes

variable {w p q a b : Nat}

def block (w p a : Nat) : Set Nat := {x | x / 2 ^ (w - p) = a / 2 ^ (w - p)}

def lowest (w p a : Nat) : Nat := a - a % 2 ^ (w - p)

def highest (w p a : Nat) : Nat := lowest w p a + (2 ^ (w - p) - 1)

theorem lowest_eq (w p a : Nat) : lowest w p a = 2 ^ (w - p) * (a / 2 ^ (w - p)) := by
  have h := Nat.div_add_mod a (2 ^ (w - p))
  unfold lowest
  omega

theorem mem_block_self (w p a : Nat) : a ∈ block w p a := rfl

theorem block_eq_Icc (w p a : Nat) : block w p a = Set.Icc (lowest w p a) (highest w p a) := by
  have hpos : 0 < 2 ^ (w - p) := Nat.two_pow_pos _
  ext x
  rw [Set.mem_Icc]
  unfold highest
  rw [lowest_eq]
  show x / 2 ^ (w - p) = _ ↔ _
  rw [Nat.div_eq_iff hpos, Nat.mul_comm]
  omega

theorem lowest_le_highest (w p a : Nat) : lowest w p a ≤ highest w p a := Nat.le_add_right _ _

theorem isLeast_lowest (w p a : Nat) : IsLeast (block w p a) (lowest w p a) := by
  rw [block_eq_Icc]
  exact ⟨⟨le_refl _, lowest_le_highest w p a⟩, fun x hx => hx.1⟩

theorem isGreatest_highest (w p a : Nat) : IsGreatest (block w p a) (highest w p a) := by
  rw [block_eq_Icc]
  exact ⟨⟨lowest_le_highest w p a, le_refl _⟩, fun x hx => hx.2⟩

/-- **Blocks in blocks**: fewer bits, and they agree. -/
theorem block_subset_iff (hp : p ≤ w) (hq : q ≤ w) :
    block w q b ⊆ block w p a ↔ p ≤ q ∧ b / 2 ^ (w - p) = a / 2 ^ (w - p) := by
  constructor
  · intro h
    refine ⟨?_, h (mem_block_self w q b)⟩
    -- the block of `b` is not longer than the one of `a`
    have hsub := h
    rw [block_eq_Icc, block_eq_Icc] at hsub
    have h1 := (hsub (Set.left_mem_Icc.mpr (lowest_le_highest w q b))).1
    have h2 := (hsub (Set.right_mem_Icc.mpr (lowest_le_highest w q b))).2
    unfold highest at h2
    have hle : 2 ^ (w - q) ≤ 2 ^ (w - p) := by
      have := Nat.two_pow_pos (w - q)
      have := Nat.two_pow_pos (w - p)
      omega
    have := (Nat.pow_le_pow_iff_right (by decide)).mp hle
    omega
  · rintro ⟨hpq, h⟩ x hx
    have hx : x / 2 ^ (w - q) = b / 2 ^ (w - q) := hx
    show x / 2 ^ (w - p) = _
    have hs : 2 ^ (w - p) = 2 ^ (w - q) * 2 ^ (q - p) := by
      rw [← Nat.pow_add]
      congr 1
      omega
    rw [← h, hs, ← Nat.div_div_eq_div_mul, ← Nat.div_div_eq_div_mul, hx]

/-! ## masks -/

/-- the bits of a mask -/
theorem testBit_mask {k : Nat} (hk : k ≤ w) (i : Nat) :
    (2 ^ w - 2 ^ k).testBit i = (decide (k ≤ i) && decide (i < w)) := by
  have he : 2 ^ w - 2 ^ k = (2 ^ (w - k) - 1) <<< k := by
    rw [Nat.shiftLeft_eq, Nat.sub_mul, one_mul, ← Nat.pow_add, Nat.sub_add_cancel hk]
  rw [he, Nat.testBit_shiftLeft, Nat.testBit_two_pow_sub_one]
  by_cases h : k ≤ i
  · congr 1
    exact decide_eq_decide.mpr (by omega)
  · rw [decide_eq_false h, Bool.false_and, Bool.false_and]

/-- the low `k` bits are cleared -/
theorem keep {a k : Nat} (hk : k ≤ w) (ha : a < 2 ^ w) : a &&& (2 ^ w - 2 ^ k) = a - a % 2 ^ k := by
  have he : a - a % 2 ^ k = a >>> k <<< k := by
    have := Nat.div_add_mod a (2 ^ k)
    rw [Nat.shiftLeft_eq, Nat.shiftRight_eq_div_pow, Nat.mul_comm]
    omega
  rw [he]
  refine Nat.eq_of_testBit_eq fun i => ?_
  rw [Nat.testBit_and, testBit_mask hk, Nat.testBit_shiftLeft, Nat.testBit_shiftRight]
  by_cases h : k ≤ i
  · rw [decide_eq_true h, Bool.true_and, Bool.true_and, show k + (i - k) = i by omega]
    by_cases hi : i < w
    · rw [decide_eq_true hi, Bool.and_true]
    · rw [Nat.testBit_lt_two_pow (Nat.lt_of_lt_of_le ha (Nat.pow_le_pow_right (by decide)
        (Nat.not_lt.mp hi))), Bool.false_and]
  · rw [decide_eq_false h, Bool.false_and, Bool.and_false, Bool.false_and]

/-- the low `k` bits are set -/
theorem fill (a k : Nat) : a ||| (2 ^ k - 1) = a - a % 2 ^ k + (2 ^ k - 1) := by
  have hlt : 2 ^ k - 1 < 2 ^ k := Nat.sub_lt (Nat.two_pow_pos k) Nat.one_pos
  have he : a - a % 2 ^ k = (a / 2 ^ k) <<< k := by
    have := Nat.div_add_mod a (2 ^ k)
    rw [Nat.shiftLeft_eq, Nat.mul_comm]
    omega
  rw [he, Nat.shiftLeft_add_eq_or_of_lt hlt]
  refine Nat.eq_of_testBit_eq fun i => ?_
  rw [Nat.testBit_or, Nat.testBit_or, Nat.testBit_two_pow_sub_one, Nat.testBit_shiftLeft,
    Nat.testBit_div_two_pow]
  by_cases hk : i < k
  · rw [decide_eq_true hk, Bool.or_true, Bool.or_true]
  · rw [decide_eq_true (by omega : i ≥ k), Bool.true_and, show i - k + k = i by omega]

end Prefixes
