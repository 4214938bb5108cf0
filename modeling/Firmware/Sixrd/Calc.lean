import Mathlib.Data.Nat.Bitwise
import Firmware.Lib.Bits

/-!
# 6rdcalc

The delegated prefix of 6rd: the prefix of the provider, and behind it the bits of the IPv4 address
behind its own mask.

* `setBit`      one bit of the IPv6 address, in place; `none` is outside of it;
* `combine`     the loop over the bits of the IPv4 address;
* `clear`       the loop over what is left;
* `main_spec`   the bits of the result.

`main` gets the addresses and the masks as `parse_str` reads them, and checks the masks as it does.
-/

set_option linter.unusedVariables false

namespace Sixrd
open Bits

/-- `128 >> (it & 0x07)` -/
def mask (it : Nat) : UInt8 := 128 >>> UInt8.ofNat (it % 8)

/-- `if (b) *byte6 |= bit6; else *byte6 &= ~bit6;` -/
def setBit (v6 : List UInt8) (it : Nat) (b : Bool) : Option (List UInt8) := do
  let x ← v6[it / 8]?
  some (v6.set (it / 8) (if b then x ||| mask it else x &&& ~~~(mask it)))

/-- the loop with `n` rounds left: `v4it = 32 - n` -/
def combine (v4 : List UInt8) : Nat → List UInt8 → Nat → Nat → Option (List UInt8 × Nat)
  | 0, v6, v6it, _ => some (v6, v6it)
  | n + 1, v6, v6it, v4it => do
    let y ← v4[v4it / 8]?
    let v6 ← setBit v6 v6it (y &&& mask v4it ≠ 0)
    combine v4 n v6 (v6it + 1) (v4it + 1)

/-- the loop with `n` rounds left: `v6it = 128 - n` -/
def clear : Nat → List UInt8 → Nat → Option (List UInt8)
  | 0, v6, _ => some v6
  | n + 1, v6, v6it => do
    let v6 ← setBit v6 v6it false
    clear n v6 (v6it + 1)

/-- the usage, what is printed, or an access outside the addresses -/
inductive Outcome
  | usage
  | printed (v6 : List UInt8) (mask : Nat)
  | outside

def main (v6 : Vector UInt8 16) (v6it : Nat) (v4 : Vector UInt8 4) (v4it : Nat) : Outcome :=
  if v6it > 128 then .usage
  else if v4it > 32 then .usage
  else
    let mask := (32 - v4it) + v6it
    if mask > 128 then .usage
    else
      match combine v4.toList (32 - v4it) v6.toList v6it v4it with
      | none => .outside
      | some (v6, v6it) =>
        match clear (128 - v6it) v6 v6it with
        | none => .outside
        | some v6 => .printed v6 mask

/-! ## one bit -/

theorem mask_testBit : ∀ k < 8, ∀ t < 8, (mask k).toNat.testBit t = decide (t = 7 - k) := by decide

theorem not_mask_testBit : ∀ k < 8, ∀ t < 8, (~~~(mask k)).toNat.testBit t = !decide (t = 7 - k) := by
  decide

theorem mask_mod (it : Nat) : mask (it % 8) = mask it := by
  unfold mask
  rw [Nat.mod_mod]

/-- the test of one bit -/
theorem and_mask (y : UInt8) (it : Nat) :
    decide (y &&& mask it ≠ 0) = y.toNat.testBit (7 - it % 8) := by
  have hm : (mask it).toNat = 2 ^ (7 - it % 8) := by
    have h : ∀ k < 8, (mask k).toNat = 2 ^ (7 - k) := by decide
    rw [← mask_mod, h _ (Nat.mod_lt _ (by decide))]
  have hz : y &&& mask it = 0 ↔ (y.toNat.testBit (7 - it % 8)).toNat * 2 ^ (7 - it % 8) = 0 := by
    rw [← UInt8.toNat_inj, UInt8.toNat_and, hm, Nat.and_two_pow]
    rfl
  cases hb : y.toNat.testBit (7 - it % 8) with
  | false =>
    rw [hb] at hz
    exact decide_eq_false (not_not.mpr (hz.mpr (Nat.zero_mul _)))
  | true =>
    rw [hb] at hz
    refine decide_eq_true fun h => ?_
    have h0 := hz.mp h
    have hpos := Nat.two_pow_pos (7 - it % 8)
    rw [show true.toNat = 1 from rfl, Nat.one_mul] at h0
    omega

/-- **One bit** is set, and the others stay. -/
theorem setBit_spec {v6 : List UInt8} {it : Nat} (b : Bool) (h : it < 8 * v6.length) :
    ∃ v6', setBit v6 it b = some v6' ∧ v6'.length = v6.length ∧
      ∀ i, bit v6' i = if i = it then b else bit v6 i := by
  have hk : it / 8 < v6.length := by omega
  refine ⟨v6.set (it / 8) (if b then v6[it / 8] ||| mask it else v6[it / 8] &&& ~~~(mask it)), ?_,
    List.length_set, fun i => ?_⟩
  · unfold setBit
    rw [List.getElem?_eq_getElem hk]
    rfl
  · have hx : bit v6 i = v6[it / 8].toNat.testBit (7 - i % 8) ∨ ¬i / 8 = it / 8 := by
      by_cases hi : i / 8 = it / 8
      · left
        unfold bit
        rw [hi, List.getD_eq_getElem _ _ hk]
      · exact Or.inr hi
    rw [bit_set _ hk]
    by_cases hi : i / 8 = it / 8
    · have hx := hx.resolve_right (not_not.mpr hi)
      have ht : 7 - i % 8 < 8 := by omega
      have he : decide (7 - i % 8 = 7 - it % 8) = decide (i = it) := decide_eq_decide.mpr (by omega)
      rw [if_pos hi, hx]
      cases b with
      | true =>
        rw [if_pos rfl, UInt8.toNat_or, Nat.testBit_or, ← mask_mod it,
          mask_testBit _ (Nat.mod_lt _ (by decide)) _ ht, he]
        by_cases hi : i = it
        · rw [if_pos hi, decide_eq_true hi, Bool.or_true]
        · rw [if_neg hi, decide_eq_false hi, Bool.or_false]
      | false =>
        rw [if_neg Bool.false_ne_true, UInt8.toNat_and, Nat.testBit_and, ← mask_mod it,
          not_mask_testBit _ (Nat.mod_lt _ (by decide)) _ ht, he]
        by_cases hi : i = it
        · rw [if_pos hi, decide_eq_true hi]
          exact Bool.and_false _
        · rw [if_neg hi, decide_eq_false hi]
          exact Bool.and_true _
    · rw [if_neg hi, if_neg fun h => hi (by rw [h])]

/-! ## the loops -/

/-- `n` bits of the IPv4 address from `v4it` on are copied to `v6it` -/
theorem combine_spec (v4 : List UInt8) (n : Nat) : ∀ (v6 : List UInt8) (v6it v4it : Nat),
    v4it + n ≤ 8 * v4.length → v6it + n ≤ 8 * v6.length →
    ∃ v6', combine v4 n v6 v6it v4it = some (v6', v6it + n) ∧ v6'.length = v6.length ∧
      ∀ i, bit v6' i = if v6it ≤ i ∧ i < v6it + n then bit v4 (v4it + (i - v6it)) else bit v6 i := by
  induction n with
  | zero =>
    intro v6 v6it v4it h4 h6
    refine ⟨v6, rfl, rfl, fun i => ?_⟩
    rw [if_neg (by omega)]
  | succ n ih =>
    intro v6 v6it v4it h4 h6
    have hk : v4it / 8 < v4.length := by omega
    have hbit : decide (v4[v4it / 8] &&& mask v4it ≠ 0) = bit v4 v4it := by
      rw [and_mask]
      unfold bit
      rw [List.getD_eq_getElem _ _ hk]
    obtain ⟨v6', hset, hlen, hb⟩ := setBit_spec (bit v4 v4it) (show v6it < 8 * v6.length by omega)
    obtain ⟨v6'', hrun, hlen', hb'⟩ := ih v6' (v6it + 1) (v4it + 1) (by omega) (by omega)
    refine ⟨v6'', ?_, hlen'.trans hlen, fun i => ?_⟩
    · unfold combine
      rw [List.getElem?_eq_getElem hk]
      show (setBit v6 v6it (decide (v4[v4it / 8] &&& mask v4it ≠ 0))).bind _ = _
      rw [hbit, hset, show v6it + (n + 1) = v6it + 1 + n by omega]
      exact hrun
    · rw [hb', hb]
      by_cases hi : i = v6it
      · rw [if_neg (by omega), if_pos hi, if_pos (by omega), hi, Nat.sub_self, Nat.add_zero]
      · by_cases hin : v6it + 1 ≤ i ∧ i < v6it + 1 + n
        · rw [if_pos hin, if_pos (by omega)]
          congr 1
          omega
        · rw [if_neg hin, if_neg hi, if_neg (by omega)]

theorem clear_spec (n : Nat) : ∀ (v6 : List UInt8) (v6it : Nat), v6it + n ≤ 8 * v6.length →
    ∃ v6', clear n v6 v6it = some v6' ∧ v6'.length = v6.length ∧
      ∀ i, bit v6' i = if v6it ≤ i ∧ i < v6it + n then false else bit v6 i := by
  induction n with
  | zero =>
    intro v6 v6it h
    refine ⟨v6, rfl, rfl, fun i => ?_⟩
    rw [if_neg (by omega)]
  | succ n ih =>
    intro v6 v6it h
    obtain ⟨v6', hset, hlen, hb⟩ := setBit_spec false (show v6it < 8 * v6.length by omega)
    obtain ⟨v6'', hrun, hlen', hb'⟩ := ih v6' (v6it + 1) (by omega)
    refine ⟨v6'', ?_, hlen'.trans hlen, fun i => ?_⟩
    · unfold clear
      rw [hset]
      exact hrun
    · rw [hb', hb]
      by_cases hi : i = v6it
      · rw [if_neg (by omega), if_pos hi, if_pos (by omega)]
      · by_cases hin : v6it + 1 ≤ i ∧ i < v6it + 1 + n
        · rw [if_pos hin, if_pos (by omega)]
        · rw [if_neg hin, if_neg hi, if_neg (by omega)]

/-- **The delegated prefix**: it is refused exactly if it is longer than an address; else the bits
are those of the prefix, of the IPv4 address behind its mask, and zeros. -/
theorem main_spec (v6 : Vector UInt8 16) (p6 : Nat) (v4 : Vector UInt8 4) (p4 : Nat) (h6 : p6 ≤ 128)
    (h4 : p4 ≤ 32) :
    (128 < p6 + 32 - p4 → main v6 p6 v4 p4 = .usage) ∧
    (p6 + 32 - p4 ≤ 128 → ∃ out : List UInt8, main v6 p6 v4 p4 = .printed out (p6 + 32 - p4) ∧
      out.length = 16 ∧ ∀ i < 128, bit out i =
        if i < p6 then bit v6.toList i
        else if i < p6 + 32 - p4 then bit v4.toList (p4 + (i - p6))
        else false) := by
  have hl6 : v6.toList.length = 16 := Vector.length_toList
  have hl4 : v4.toList.length = 4 := Vector.length_toList
  have hmask : 32 - p4 + p6 = p6 + 32 - p4 := by omega
  unfold main
  rw [if_neg (by omega), if_neg (by omega)]
  dsimp only
  rw [hmask]
  constructor
  · intro h
    rw [if_pos (by omega)]
  · intro h
    obtain ⟨c, hc, hcl, hcb⟩ := combine_spec v4.toList (32 - p4) v6.toList p6 p4 (by omega)
      (by omega)
    obtain ⟨out, ho, hol, hob⟩ := clear_spec (128 - (p6 + (32 - p4))) c (p6 + (32 - p4)) (by omega)
    refine ⟨out, ?_, by omega, fun i hi => ?_⟩
    · rw [if_neg (by omega), hc]
      dsimp only
      rw [ho]
    · rw [hob, hcb]
      by_cases h1 : i < p6
      · rw [if_neg (by omega), if_neg (by omega), if_pos h1]
      · rw [if_neg h1]
        by_cases h2 : i < p6 + 32 - p4
        · rw [if_neg (by omega), if_pos (by omega), if_pos h2]
        · rw [if_pos (by omega), if_neg h2]

/-- `6rdcalc 2001:db8::/32 192.0.2.1/0` -/
def db8 : Vector UInt8 16 := #v[0x20, 0x01, 0x0d, 0xb8, 0, 0, 0, 0, 0, 0, 0, 0, 0, 0, 0, 0]
def net192 : Vector UInt8 4 := #v[192, 0, 2, 1]

theorem main_spec_db8 : ∃ out : List UInt8, main db8 32 net192 0 = .printed out 64 ∧ out.length = 16 ∧
    ∀ i < 128, bit out i =
      if i < 32 then bit db8.toList i
      else if i < 32 + 32 - 0 then bit net192.toList (0 + (i - 32))
      else false :=
  (main_spec db8 32 net192 0 (by decide) (by decide)).2 (by decide)

end Sixrd
