import Firmware.Lib.Bytes
import Mathlib.Algebra.BigOperators.Group.List.Basic

/-!
# Ones-complement sums

The sums of 16-bit words with an end-around carry, and the checksums that complete them.

* `add`, `sum`      the sum of two words, of a list of bytes;
* `total`           the sum of the words without any carry;
* `fold`            its carries folded into 16 bits: `sum_eq`;
* `fold_complete`   a checksum in the place of a zero word makes the sum `0xffff`.
-/

set_option linter.unusedVariables false

namespace Ones
open Img Word

/-- a carry is added at the lower end -/
def add (a b : Nat) : Nat := if a + b < 65536 then a + b else a + b - 65535

/-- the big-endian words; an odd byte is padded with zero -/
def words : List UInt8 → List Nat
  | [] => []
  | [a] => [256 * a.toNat]
  | a :: b :: l => (256 * a.toNat + b.toNat) :: words l

def sum (l : List UInt8) : Nat := (words l).foldl add 0

def total (l : List UInt8) : Nat := (words l).sum

/-- the number below `65536` with the residue of `n`; only 0 itself becomes 0 -/
def fold (n : Nat) : Nat := if n = 0 then 0 else (n - 1) % 65535 + 1

/-! ## carries -/

theorem fold_of_le {n : Nat} (h : n ≤ 65535) : fold n = n := by
  unfold fold
  split <;> omega

theorem fold_le (n : Nat) : fold n ≤ 65535 := by
  unfold fold
  split <;> omega

theorem add_eq {a b : Nat} (ha : a ≤ 65535) (hb : b ≤ 65535) : add a b = fold (a + b) := by
  unfold add fold
  split <;> split <;> omega

theorem fold_add (a b : Nat) : fold (fold a + b) = fold (a + b) := by
  unfold fold
  split_ifs <;> omega

theorem fold_eq_max {n : Nat} : fold n = 65535 ↔ 0 < n ∧ n % 65535 = 0 := by
  unfold fold
  split <;> omega

/-- the complement of a sum brings it to `0xffff` -/
theorem fold_complete {n : Nat} (h : 0 < n) : fold (n + (65535 - fold n)) = 65535 := by
  have hf := fold_le n
  rw [fold_eq_max]
  unfold fold at *
  rw [if_neg (by omega)] at *
  omega

/-! ## sums of bytes -/

theorem words_le (l : List UInt8) : ∀ w ∈ words l, w ≤ 65535 := by
  induction l using words.induct with
  | case1 => exact fun w h => absurd h List.not_mem_nil
  | case2 a =>
    intro w h
    have ha := a.toNat_lt
    rw [List.mem_singleton.mp h]
    omega
  | case3 a b l ih =>
    intro w h
    have ha := a.toNat_lt
    have hb := b.toNat_lt
    rcases List.mem_cons.mp h with rfl | h
    · omega
    · exact ih w h

theorem foldl_add {ws : List Nat} (h : ∀ w ∈ ws, w ≤ 65535) :
    ∀ {s : Nat}, s ≤ 65535 → ws.foldl add s = fold (s + ws.sum) := by
  induction ws with
  | nil =>
    intro s hs
    exact (fold_of_le hs).symm
  | cons w ws ih =>
    intro s hs
    have hw := h w List.mem_cons_self
    rw [List.foldl_cons, add_eq hs hw, ih (fun x hx => h x (List.mem_cons_of_mem _ hx)) (fold_le _),
      fold_add, List.sum_cons, Nat.add_assoc]

theorem sum_eq (l : List UInt8) : sum l = fold (total l) := by
  unfold sum
  rw [foldl_add (words_le l) (Nat.zero_le _), Nat.zero_add]
  rfl

theorem total_cons (a b : UInt8) (l : List UInt8) :
    total (a :: b :: l) = 256 * a.toNat + b.toNat + total l := List.sum_cons

/-- words do not cross an even boundary -/
theorem total_append {a : List UInt8} (b : List UInt8) (h : a.length % 2 = 0) :
    total (a ++ b) = total a + total b := by
  induction a using words.induct with
  | case1 => exact (Nat.zero_add _).symm
  | case2 x => exact absurd h (by rw [List.length_singleton]; decide)
  | case3 x y l ih =>
    rw [List.length_cons, List.length_cons] at h
    rw [List.cons_append, List.cons_append, total_cons, total_cons, ih (by omega)]
    omega

theorem total_put16 (w : UInt16) : total (put16 true w) = w.toNat := by
  have hw := w.toNat_lt
  show 256 * (UInt8.ofNat (w.toNat / 256)).toNat + (UInt8.ofNat w.toNat).toNat + 0 = w.toNat
  rw [UInt8.toNat_ofNat', UInt8.toNat_ofNat']
  omega

theorem le_total {m : List UInt8} {off : Nat} {w : UInt16} (hoff : off % 2 = 0)
    (hm : off + 2 ≤ m.length) (h : slice m off 2 = put16 true w) : w.toNat ≤ total m := by
  have hl : (m.take off).length % 2 = 0 := by
    rw [List.length_take]
    omega
  have h2 : (put16 true w).length % 2 = 0 := by rw [put16_length]
  rw [split_slice m off 2, h, total_append _ hl, total_append _ h2, total_put16]
  omega

/-- a word in the place of a zero word -/
theorem total_poke {m : List UInt8} {off : Nat} (w : UInt16) (hoff : off % 2 = 0)
    (hm : off + 2 ≤ m.length) :
    total (poke m off (put16 true w)) = total (poke m off [0, 0]) + w.toNat := by
  have hl : (m.take off).length % 2 = 0 := by
    rw [List.length_take]
    omega
  have h2 : (put16 true w).length % 2 = 0 := by rw [put16_length]
  have h0 : ([0, 0] : List UInt8).length % 2 = 0 := rfl
  unfold poke
  rw [total_append _ hl, total_append _ h2, total_append _ hl, total_append _ h0, total_put16,
    put16_length]
  show _ + (w.toNat + total (m.drop (off + 2))) = _ + (0 + total (m.drop (off + 2))) + _
  omega

end Ones
