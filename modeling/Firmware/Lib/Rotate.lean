import Firmware.Lib.NetOrder

/-!
# Rotations of a word

* `rotate_toNat`            a rotation as arithmetic;
* `le32_rotate`, `le32_rol` a rotation by one byte, seen in the bytes;
* `swap_bytes`              two rotations and two masks turn the bytes around.
-/

set_option linter.unusedVariables false

namespace Word

theorem rotate_toNat {k : Nat} (h0 : 0 < k) (hk : k < 32) (w : UInt32) :
    ((w >>> UInt32.ofNat k) ||| (w <<< (32 - UInt32.ofNat k))).toNat
      = w.toNat / 2 ^ k + w.toNat % 2 ^ k * 2 ^ (32 - k) := by
  have hw := w.toNat_lt
  have hkn : (UInt32.ofNat k).toNat = k := UInt32.toNat_ofNat_of_lt' (by show k < 4294967296; omega)
  have hsub : (32 - UInt32.ofNat k).toNat = 32 - k := by
    rw [UInt32.toNat_sub_of_le _ _ (by rw [UInt32.le_iff_toNat_le, hkn]; show k ≤ 32; omega), hkn]
    rfl
  have hp : (2 : Nat) ^ k * 2 ^ (32 - k) = 2 ^ 32 := by
    rw [← Nat.pow_add]
    congr 1
    omega
  have hlow : w.toNat / 2 ^ k < 2 ^ (32 - k) :=
    Nat.div_lt_of_lt_mul (by rw [hp]; exact hw)
  have hhigh : w.toNat * 2 ^ (32 - k) % 2 ^ 32 = 2 ^ (32 - k) * (w.toNat % 2 ^ k) := by
    rw [← hp, Nat.mul_mod_mul_right, Nat.mul_comm]
  rw [UInt32.toNat_or, UInt32.toNat_shiftRight, UInt32.toNat_shiftLeft, hkn, hsub,
    Nat.mod_eq_of_lt hk, Nat.mod_eq_of_lt (show 32 - k < 32 by omega), Nat.shiftRight_eq_div_pow,
    Nat.shiftLeft_eq, hhigh, Nat.or_comm, ← Nat.two_pow_add_eq_or_of_lt hlow, Nat.add_comm,
    Nat.mul_comm (2 ^ (32 - k))]

theorem le32_eq {w : UInt32} {a b c d : UInt8} (h : w.toNat = a.toNat + 256 * b.toNat + 65536 * c.toNat +
    16777216 * d.toNat) : le32 w = [a, b, c, d] := by
  have hw : w = ofLe32 [a, b, c, d] := by
    apply UInt32.toNat_inj.mp
    show w.toNat = (a.toNat + 256 * b.toNat + 65536 * c.toNat + 16777216 * d.toNat) % 4294967296
    rw [← h, Nat.mod_eq_of_lt w.toNat_lt]
  rw [hw, le32_ofLe32]

/-- to the right: the last byte comes to the front -/
theorem le32_rotate {w : UInt32} {a b c d : UInt8} (h : le32 w = [a, b, c, d]) :
    le32 ((w >>> 8) ||| (w <<< (32 - 8))) = [b, c, d, a] := by
  have hr := rotate_toNat (k := 8) (by decide) (by decide) w
  have ha := a.toNat_lt
  have hw := toNat_of_le32 h
  have h1 : w.toNat / 2 ^ 8 = b.toNat + 256 * c.toNat + 65536 * d.toNat := by omega
  have h2 : w.toNat % 2 ^ 8 = a.toNat := by omega
  rw [h1, h2] at hr
  apply le32_eq
  rw [show ((8 : UInt32)) = UInt32.ofNat 8 from rfl, hr]
  omega

/-- to the left -/
theorem le32_rol {w : UInt32} {a b c d : UInt8} (h : le32 w = [a, b, c, d]) :
    le32 ((w <<< 8) ||| (w >>> (32 - 8))) = [d, a, b, c] := by
  have hr := rotate_toNat (k := 24) (by decide) (by decide) w
  have hd := d.toNat_lt
  have hc := c.toNat_lt
  have hb := b.toNat_lt
  have ha := a.toNat_lt
  have hw := toNat_of_le32 h
  have h1 : w.toNat / 2 ^ 24 = d.toNat := by omega
  have h2 : w.toNat % 2 ^ 24 = a.toNat + 256 * b.toNat + 65536 * c.toNat := by omega
  rw [h1, h2] at hr
  apply le32_eq
  rw [UInt32.or_comm]
  show ((w >>> UInt32.ofNat 24) ||| (w <<< (32 - UInt32.ofNat 24))).toNat = _
  rw [hr]
  omega

theorem swap_bytes {w : UInt32} {a b c d : UInt8} (h : le32 w = [a, b, c, d]) :
    le32 ((((w <<< 24) ||| (w >>> (32 - 24))) &&& (0xFF00FF00 : UInt32)) |||
      (((w <<< 8) ||| (w >>> (32 - 8))) &&& (0x00FF00FF : UInt32))) = [d, c, b, a] := by
  have hr := le32_rotate h
  have hm : le32 0xFF00FF00 = [0, 0xFF, 0, 0xFF] := by decide
  have hm' : le32 0x00FF00FF = [0xFF, 0, 0xFF, 0] := by decide
  rw [UInt32.or_comm] at hr
  rw [le32_or, le32_and, le32_and, le32_rol h, show le32 ((w <<< 24) ||| (w >>> (32 - 24))) = [b, c, d, a]
    from hr, hm, hm']
  have hff (x : UInt8) : x &&& 0xFF = x := UInt8.and_neg_one
  simp [hff]

end Word
