import Mathlib.Data.Nat.Log
import Firmware.Lib.Scanf

/-!
# Decimal numbers

What `%d` prints for a number that is not negative, and the digits of such a text.

* `decimal n`         `%d`;
* `isdigit`           the digits;
* `digits_decimal`    the number of a printed text;
* `strtoul`           `strtoul(s, &s, 10)`, and what it does at a digit;
* `strtoul0`, `strtoul16` `strtoul(s, &s, 0)` and `strtoul(s, &s, 16)`.
-/

namespace Scanf
open CStr

/-- the last `k` digits -/
def decL (k n : Nat) : List UInt8 :=
  (List.range k).reverse.map fun i => lowerDigit (n / 10 ^ i % 10)

def decimal (n : Nat) : List UInt8 := decL (Nat.log 10 n + 1) n

def isdigit (b : UInt8) : Bool := 48 ≤ b && b ≤ 57

theorem decL_succ (k n : Nat) : decL (k + 1) n = lowerDigit (n / 10 ^ k % 10) :: decL k n :=
  reverse_range_succ _ k

theorem digits_decL (k n acc : Nat) : digits 10 acc (decL k n) = acc * 10 ^ k + n % 10 ^ k :=
  digits_base (by decide) (by decide) k n acc

theorem digits_decimal (n : Nat) : digits 10 0 (decimal n) = n := by
  unfold decimal
  rw [digits_decL, Nat.zero_mul, Nat.zero_add, Nat.mod_eq_of_lt]
  exact Nat.lt_pow_succ_log_self (by decide) n

theorem isdigit_lowerDigit : ∀ d, d < 10 → isdigit (lowerDigit d) = true := by decide

theorem isdigit_decimal {n : Nat} {b : UInt8} (h : b ∈ decimal n) : isdigit b = true := by
  obtain ⟨i, -, rfl⟩ := List.mem_map.mp h
  exact isdigit_lowerDigit _ (Nat.mod_lt _ (by decide))

theorem decimal_ne_nil (n : Nat) : decimal n ≠ [] := by
  unfold decimal
  rw [decL_succ]
  exact List.cons_ne_nil _ _

/-! ## reading -/

/-- `strtoul(s, &s, 10)`, where `max` is `ULONG_MAX`: the number and the rest of the text -/
def strtoul (max : Nat) (l : List UInt8) : Nat × List UInt8 :=
  let (neg, r) := sign (blank l)
  let ds := r.takeWhile isdigit
  let n := digits 10 0 ds
  if ds.length = 0 then (0, l)
  else if n > max then (max, r.dropWhile isdigit)
  else (if neg then (max + 1 - n) % (max + 1) else n, r.dropWhile isdigit)

/-- the base of a number with a prefix, and its digits -/
def based : List UInt8 → Nat × List UInt8
  | 48 :: x :: d :: l =>
    if (x = 120 ∨ x = 88) ∧ isxdigit d then (16, d :: l) else (8, 48 :: x :: d :: l)
  | 48 :: l => (8, 48 :: l)
  | l => (10, l)

def digitOf (base : Nat) (b : UInt8) : Bool := (digitVal b).any (· < base)

/-- `strtoul(s, &s, 0)`, where `max` is `ULONG_MAX` -/
def strtoul0 (max : Nat) (l : List UInt8) : Nat × List UInt8 :=
  let (neg, r) := sign (blank l)
  let (base, r) := based r
  let ds := r.takeWhile (digitOf base)
  let n := digits base 0 ds
  if ds.length = 0 then (0, l)
  else if n > max then (max, r.dropWhile (digitOf base))
  else (if neg then (max + 1 - n) % (max + 1) else n, r.dropWhile (digitOf base))

/-- `0x` is a prefix only before a digit -/
def skip0x : List UInt8 → List UInt8
  | 48 :: x :: d :: l => if (x = 120 ∨ x = 88) ∧ isxdigit d then d :: l else 48 :: x :: d :: l
  | l => l

/-- `strtoul(s, &s, 16)`, where `max` is `ULONG_MAX` -/
def strtoul16 (max : Nat) (l : List UInt8) : Nat × List UInt8 :=
  let (neg, r) := sign (blank l)
  let r := skip0x r
  let ds := r.takeWhile isxdigit
  let n := digits 16 0 ds
  if ds.length = 0 then (0, l)
  else if n > max then (max, r.dropWhile isxdigit)
  else (if neg then (max + 1 - n) % (max + 1) else n, r.dropWhile isxdigit)

theorem of_isdigit {b : UInt8} (h : isdigit b = true) : ∃ d, d < 10 ∧ b = lowerDigit d := by
  unfold isdigit at h
  rw [Bool.and_eq_true, decide_eq_true_iff, decide_eq_true_iff, UInt8.le_iff_toNat_le,
    UInt8.le_iff_toNat_le] at h
  have h1 : 48 ≤ b.toNat := h.1
  have h2 : b.toNat ≤ 57 := h.2
  refine ⟨b.toNat - 48, by omega, ?_⟩
  unfold lowerDigit
  rw [if_pos (by omega), Nat.add_sub_cancel' h1, UInt8.ofNat_toNat]

/-- a digit is neither white space nor a sign -/
theorem isdigit_spec {b : UInt8} (h : isdigit b = true) : isspace b = false ∧ b ≠ 45 ∧ b ≠ 43 := by
  obtain ⟨d, hd, rfl⟩ := of_isdigit h
  have hs := lowerDigit_spec d (by omega)
  exact ⟨hs.2.1, hs.2.2.1, hs.2.2.2.1⟩

theorem strtoul_digit {max : Nat} {l : List UInt8} (h : ∃ b ∈ l.head?, isdigit b = true) :
    strtoul max l = (min (digits 10 0 (l.takeWhile isdigit)) max, l.dropWhile isdigit) := by
  obtain ⟨b, hb, hd⟩ := h
  obtain ⟨l, rfl⟩ : ∃ r, l = b :: r := ⟨_, List.eq_cons_of_mem_head? hb⟩
  obtain ⟨hs, hm, hp⟩ := isdigit_spec hd
  have hblank : blank (b :: l) = b :: l :=
    blank_of_dense fun c hc => by rw [← Option.some.inj hc]; exact hs
  unfold strtoul
  rw [hblank, sign_cons hm hp]
  dsimp only
  rw [if_neg (by rw [List.takeWhile_cons_of_pos hd]; simp)]
  by_cases hn : digits 10 0 ((b :: l).takeWhile isdigit) > max
  · rw [if_pos hn, Nat.min_eq_right (by omega)]
  · rw [if_neg hn, if_neg Bool.false_ne_true, Nat.min_eq_left (by omega)]

example : decimal 63 = [54, 51] := by decide

end Scanf
