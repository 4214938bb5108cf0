import Firmware.Map.Address

/-!
# mapcalc: the copies of bits on either host

`bmemcpys64` shifts a 64-bit integer between two conversions of its byte order.

* `be64ToCpu`, `cpuToBe64`   the conversions;
* `bmemcpys64On`             the copy on a host of the given byte order;
* `bmemcpys64On_eq`          it is the same on both;
* `copies_exact`             what the copies do to every bit.
-/

set_option linter.unusedVariables false

namespace MapCalc
open Img Bits

/-- the value of a `uint64_t` whose bytes in memory are `m` -/
def ofMem (big : Bool) (m : List UInt8) : Nat := if big then ofBytes m else ofBytes m.reverse

/-- the bytes of a `uint64_t` in memory -/
def toMem (big : Bool) (n : Nat) : List UInt8 :=
  if big then toBytes 8 n else (toBytes 8 n).reverse

def bswap64 (n : Nat) : Nat := ofBytes (toBytes 8 n).reverse

def be64ToCpu (big : Bool) (n : Nat) : Nat := if big then n else bswap64 n

def cpuToBe64 (big : Bool) (n : Nat) : Nat := if big then n else bswap64 n

def bmemcpys64On (big : Bool) (a b : List UInt8) (frombits nbits : Nat) : Option (List UInt8) := do
  let frombyte := frombits / 8
  let tobyte := (frombits + nbits) / 8
  let mem ← (load b frombyte (tobyte - frombyte + 1)).bind (store (List.replicate 8 0) 0)
  let buf := ofMem big mem
  let buf := cpuToBe64 big ((be64ToCpu big buf <<< (frombits % 8)) % 2 ^ 64)
  bmemcpy a (toMem big buf) nbits

/-- the host takes the integer out of the memory that it has in big-endian order -/
theorem be64ToCpu_ofMem (big : Bool) {m : List UInt8} (hm : m.length = 8) :
    be64ToCpu big (ofMem big m) = ofBytes m := by
  cases big with
  | true => rfl
  | false =>
    show ofBytes (toBytes 8 (ofBytes m.reverse)).reverse = ofBytes m
    rw [← hm, ← List.length_reverse, toBytes_ofBytes, List.reverse_reverse]

theorem toMem_cpuToBe64 (big : Bool) (n : Nat) : toMem big (cpuToBe64 big n) = toBytes 8 n := by
  cases big with
  | true => rfl
  | false =>
    have h := toBytes_ofBytes (toBytes 8 n).reverse
    rw [List.length_reverse, toBytes_length] at h
    show (toBytes 8 (ofBytes (toBytes 8 n).reverse)).reverse = _
    rw [h, List.reverse_reverse]

/-- **Either host** copies the same bits. -/
theorem bmemcpys64On_eq (big : Bool) (a b : List UInt8) (f n : Nat) :
    bmemcpys64On big a b f n = bmemcpys64 a b f n := by
  unfold bmemcpys64On bmemcpys64
  rw [if_neg (by omega)]
  simp only [Int.toNat_natCast]
  refine Option.bind_congr fun mem hmem => ?_
  obtain ⟨d, -, hs⟩ := Option.bind_eq_some_iff.mp hmem
  have hm : mem.length = 8 := store_length hs
  rw [be64ToCpu_ofMem big hm, toMem_cpuToBe64]
  exact congrArg (bmemcpy a · n) (toBytes_mod 8 _)

/-- **The copies are exact**: `n` bits are new, and nothing else changes. -/
theorem copies_exact (big : Bool) :
    (∀ (a b : List UInt8) (n : Nat), n ≤ 8 * a.length → n ≤ 8 * b.length →
      ∃ m, bmemcpy a b n = some m ∧ m.length = a.length ∧
        ∀ i < 8 * a.length, bit m i = if i < n then bit b i else bit a i) ∧
    ∀ (a b : List UInt8) (frombits nbits : Nat), frombits % 8 + nbits < 64 →
      frombits + nbits < 8 * b.length → nbits ≤ 8 * a.length →
      ∃ m, bmemcpys64On big a b frombits nbits = some m ∧ m.length = a.length ∧
        ∀ i < 8 * a.length, bit m i = if i < nbits then bit b (frombits + i) else bit a i := by
  constructor
  · intro a b n ha hb
    obtain ⟨m, h, hbit⟩ := bmemcpy_bit ha hb
    exact ⟨m, h, bmemcpy_length h, hbit⟩
  · intro a b f n h64 hb ha
    obtain ⟨m, h, hbit⟩ := bmemcpys64_bit ha h64 hb
    exact ⟨m, by rw [bmemcpys64On_eq, h], bmemcpys64_length h, hbit⟩

/-- eleven bits from the middle of a prefix -/
theorem copies_exact_prefix :
    (∃ m, bmemcpy [0xff, 0xff] [0x12, 0x34] 11 = some m ∧ m.length = 2 ∧
      ∀ i < 16, bit m i = if i < 11 then bit [0x12, 0x34] i else bit [0xff, 0xff] i) ∧
    ∃ m, bmemcpys64On false [0xff, 0xff] [0x20, 0x01, 0x0d, 0xb8] 5 11 = some m ∧ m.length = 2 ∧
      ∀ i < 16, bit m i = if i < 11 then bit [0x20, 0x01, 0x0d, 0xb8] (5 + i) else bit [0xff, 0xff] i :=
  ⟨(copies_exact false).1 [0xff, 0xff] [0x12, 0x34] 11 (by decide) (by decide),
    (copies_exact false).2 [0xff, 0xff] [0x20, 0x01, 0x0d, 0xb8] 5 11 (by decide) (by decide) (by decide)⟩

end MapCalc
