import Firmware.Lib.Bits

/-!
# Network order

A 32-bit word whose bytes go through a memory with the most significant byte first.

* `htonl`, `ntohl`    inverse to each other, for either byte order of the host;
* `ntohl_toNat`       the number the bytes denote;
* `ntohl_and`, `ntohl_or`   masks go through.
-/

namespace Word
open Bits

def htonl (big : Bool) (x : UInt32) : UInt32 := get32 big (put32 true x)

def ntohl (big : Bool) (s : UInt32) : UInt32 := get32 true (put32 big s)

@[simp] theorem put32_htonl (big : Bool) (x : UInt32) : put32 big (htonl big x) = put32 true x :=
  ((get32_eq_iff (put32_length true x)).mp rfl).symm

@[simp] theorem put32_ntohl (big : Bool) (s : UInt32) : put32 true (ntohl big s) = put32 big s :=
  ((get32_eq_iff (put32_length big s)).mp rfl).symm

@[simp] theorem ntohl_htonl (big : Bool) (x : UInt32) : ntohl big (htonl big x) = x := by
  unfold ntohl
  rw [put32_htonl, get32_put32]

theorem ntohl_big (s : UInt32) : ntohl true s = s := get32_put32 true s

theorem put32_inj (big : Bool) {x y : UInt32} : put32 big x = put32 big y ↔ x = y := by
  constructor
  · intro h
    rw [← get32_put32 big x, h, get32_put32]
  · rintro rfl
    rfl

/-! ## the bytes -/

theorem le32_cons (w : UInt32) : ∃ a b c d, le32 w = [a, b, c, d] := ⟨_, _, _, _, rfl⟩

theorem toNat_of_le32 {w : UInt32} {a b c d : UInt8} (h : le32 w = [a, b, c, d]) :
    w.toNat = a.toNat + 256 * b.toNat + 65536 * c.toNat + 16777216 * d.toNat := by
  have ha := a.toNat_lt
  have hb := b.toNat_lt
  have hc := c.toNat_lt
  have hd := d.toNat_lt
  rw [← ofLe32_le32 w, h]
  show (UInt32.ofNat _).toNat = _
  rw [UInt32.toNat_ofNat', Nat.mod_eq_of_lt (by omega)]

/-- the number in network order -/
theorem ntohl_toNat (big : Bool) (s : UInt32) : (ntohl big s).toNat = ofBytes (put32 big s) := by
  obtain ⟨a, b, c, d, h⟩ := le32_cons (ntohl big s)
  rw [toNat_of_le32 h, ← put32_ntohl]
  show _ = ofBytes (le32 (ntohl big s)).reverse
  rw [h]
  show _ = 256 * (256 * (256 * (256 * 0 + d.toNat) + c.toNat) + b.toNat) + a.toNat
  omega

/-! ## masks -/

theorem le32_and (x y : UInt32) : le32 (x &&& y) = List.zipWith (· &&& ·) (le32 x) (le32 y) := by
  have h (k : Nat) : UInt8.ofNat ((x &&& y).toNat / 2 ^ k)
      = UInt8.ofNat (x.toNat / 2 ^ k) &&& UInt8.ofNat (y.toNat / 2 ^ k) := by
    rw [UInt32.toNat_and, Nat.and_div_two_pow, UInt8.ofNat_and]
  have h0 := h 0
  rw [Nat.pow_zero, Nat.div_one, Nat.div_one, Nat.div_one] at h0
  show [_, UInt8.ofNat (_ / 2 ^ 8), UInt8.ofNat (_ / 2 ^ 16), UInt8.ofNat (_ / 2 ^ 24)] = _
  rw [h0, h 8, h 16, h 24]
  rfl

theorem le32_or (x y : UInt32) : le32 (x ||| y) = List.zipWith (· ||| ·) (le32 x) (le32 y) := by
  have h (k : Nat) : UInt8.ofNat ((x ||| y).toNat / 2 ^ k)
      = UInt8.ofNat (x.toNat / 2 ^ k) ||| UInt8.ofNat (y.toNat / 2 ^ k) := by
    rw [UInt32.toNat_or, Nat.or_div_two_pow, UInt8.ofNat_or]
  have h0 := h 0
  rw [Nat.pow_zero, Nat.div_one, Nat.div_one, Nat.div_one] at h0
  show [_, UInt8.ofNat (_ / 2 ^ 8), UInt8.ofNat (_ / 2 ^ 16), UInt8.ofNat (_ / 2 ^ 24)] = _
  rw [h0, h 8, h 16, h 24]
  rfl

theorem put32_and (big : Bool) (x y : UInt32) :
    put32 big (x &&& y) = List.zipWith (· &&& ·) (put32 big x) (put32 big y) := by
  cases big
  · exact le32_and x y
  · show (le32 _).reverse = _
    rw [le32_and]
    rfl

theorem put32_or (big : Bool) (x y : UInt32) :
    put32 big (x ||| y) = List.zipWith (· ||| ·) (put32 big x) (put32 big y) := by
  cases big
  · exact le32_or x y
  · show (le32 _).reverse = _
    rw [le32_or]
    rfl

theorem ntohl_and (big : Bool) (x y : UInt32) : ntohl big (x &&& y) = ntohl big x &&& ntohl big y := by
  rw [← put32_inj true, put32_and, put32_ntohl, put32_ntohl, put32_ntohl, put32_and]

theorem ntohl_or (big : Bool) (x y : UInt32) : ntohl big (x ||| y) = ntohl big x ||| ntohl big y := by
  rw [← put32_inj true, put32_or, put32_ntohl, put32_ntohl, put32_ntohl, put32_or]

theorem ntohl_inj (big : Bool) {x y : UInt32} : ntohl big x = ntohl big y ↔ x = y := by
  rw [← put32_inj true, put32_ntohl, put32_ntohl, put32_inj]

end Word
