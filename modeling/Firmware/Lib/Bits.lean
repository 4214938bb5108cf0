import Firmware.Lib.Bytes
import Mathlib.Data.List.GetD
import Mathlib.Data.List.Induction

/-!
# Bits of a buffer

Network order: the bits of a buffer are counted from the most significant bit of its first byte.

* `bit`                bit `i` of a buffer;
* `ofBytes`, `toBytes` big-endian numbers of any width, and their bits.
-/

set_option linter.unusedVariables false

namespace Bits

/-- bit `i`; behind the buffer it is 0 -/
def bit (m : List UInt8) (i : Nat) : Bool := (m.getD (i / 8) 0).toNat.testBit (7 - i % 8)

def ofBytes (m : List UInt8) : Nat := m.foldl (fun n b => 256 * n + b.toNat) 0

/-- the low `8 * k` bits of `n` -/
def toBytes : Nat → Nat → List UInt8
  | 0, _ => []
  | k + 1, n => toBytes k (n / 256) ++ [UInt8.ofNat n]

/-! ## one bit -/

theorem bit_append_left {a : List UInt8} (b : List UInt8) {i : Nat} (h : i < 8 * a.length) :
    bit (a ++ b) i = bit a i := by
  unfold bit
  rw [List.getD_append _ _ _ _ (by omega)]

theorem bit_append_right {a : List UInt8} (b : List UInt8) {i : Nat} (h : 8 * a.length ≤ i) :
    bit (a ++ b) i = bit b (i - 8 * a.length) := by
  unfold bit
  rw [List.getD_append_right _ _ _ _ (by omega), show (i - 8 * a.length) / 8 = i / 8 - a.length by
    omega, show (i - 8 * a.length) % 8 = i % 8 by omega]

theorem bit_drop (a : List UInt8) (k i : Nat) : bit (a.drop k) i = bit a (8 * k + i) := by
  unfold bit
  rw [List.getD_eq_getElem?_getD, List.getD_eq_getElem?_getD, List.getElem?_drop,
    show (8 * k + i) / 8 = k + i / 8 by omega, show (8 * k + i) % 8 = i % 8 by omega]

theorem bit_take (a : List UInt8) {k i : Nat} (h : i < 8 * k) : bit (a.take k) i = bit a i := by
  unfold bit
  rw [List.getD_eq_getElem?_getD, List.getD_eq_getElem?_getD,
    List.getElem?_take_of_lt (by omega)]

theorem bit_set {a : List UInt8} {k : Nat} (x : UInt8) (h : k < a.length) (i : Nat) :
    bit (a.set k x) i = if i / 8 = k then x.toNat.testBit (7 - i % 8) else bit a i := by
  unfold bit
  rw [List.getD_eq_getElem?_getD, List.getD_eq_getElem?_getD, List.getElem?_set]
  by_cases hk : i / 8 = k
  · rw [if_pos hk.symm, if_pos h, if_pos hk]
    rfl
  · rw [if_neg (Ne.symm hk), if_neg hk]

theorem bit_zeros (k i : Nat) : bit (List.replicate k 0) i = false := by
  unfold bit
  have h : (List.replicate k (0 : UInt8)).getD (i / 8) 0 = 0 := by
    rw [List.getD_eq_getElem?_getD, List.getElem?_replicate]
    split <;> rfl
  rw [h]
  simp

/-! ## numbers -/

theorem ofBytes_snoc (m : List UInt8) (b : UInt8) : ofBytes (m ++ [b]) = 256 * ofBytes m + b.toNat := by
  unfold ofBytes
  rw [List.foldl_append]
  rfl

theorem snoc_testBit (n : Nat) (b : UInt8) (t : Nat) :
    (256 * n + b.toNat).testBit t = if t < 8 then b.toNat.testBit t else n.testBit (t - 8) := by
  rw [show (256 : Nat) = 2 ^ 8 from rfl]
  exact Nat.testBit_two_pow_mul_add n b.toNat_lt t

/-- the bits of a big-endian number -/
theorem ofBytes_testBit (m : List UInt8) : ∀ t, (ofBytes m).testBit t
    = (decide (t < 8 * m.length) && bit m (8 * m.length - 1 - t)) := by
  induction m using List.reverseRecOn with
  | nil =>
    intro t
    simp [ofBytes]
  | append_singleton m b ih =>
    intro t
    rw [ofBytes_snoc, snoc_testBit, List.length_append, List.length_singleton]
    split
    · next h =>
      rw [bit_append_right _ (by omega)]
      unfold bit
      rw [show (8 * (m.length + 1) - 1 - t - 8 * m.length) / 8 = 0 by omega,
        show 7 - (8 * (m.length + 1) - 1 - t - 8 * m.length) % 8 = t by omega,
        decide_eq_true (by omega)]
      rfl
    · next h =>
      rw [ih, show 8 * (m.length + 1) - 1 - t = 8 * m.length - 1 - (t - 8) by omega]
      by_cases ht : t < 8 * (m.length + 1)
      · rw [bit_append_left _ (by omega), decide_eq_true ht, decide_eq_true (by omega)]
      · rw [decide_eq_false ht, decide_eq_false (by omega)]
        rfl

theorem ofBytes_lt (m : List UInt8) : ofBytes m < 2 ^ (8 * m.length) := by
  refine Nat.lt_pow_two_of_testBit _ fun t ht => ?_
  rw [ofBytes_testBit, decide_eq_false (by omega)]
  rfl

theorem toBytes_length : ∀ (k n : Nat), (toBytes k n).length = k
  | 0, _ => rfl
  | k + 1, n => by
    unfold toBytes
    rw [List.length_append, toBytes_length]
    rfl

/-- the bits of a number that is written out -/
theorem bit_toBytes : ∀ (k n : Nat) {i : Nat}, i < 8 * k → bit (toBytes k n) i = n.testBit (8 * k - 1 - i)
  | 0, _, i, h => absurd h (by omega)
  | k + 1, n, i, h => by
    unfold toBytes
    by_cases hi : i < 8 * k
    · rw [bit_append_left _ (by rw [toBytes_length]; exact hi), bit_toBytes k _ hi,
        show n / 256 = n / 2 ^ 8 from rfl, Nat.testBit_div_two_pow]
      congr 1
      omega
    · rw [bit_append_right _ (by rw [toBytes_length]; omega), toBytes_length]
      unfold bit
      rw [show (i - 8 * k) / 8 = 0 by omega]
      show (UInt8.ofNat n).toNat.testBit _ = _
      rw [UInt8.toNat_ofNat', Nat.testBit_mod_two_pow, decide_eq_true (by omega), Bool.true_and]
      congr 1
      omega

theorem ofBytes_toBytes (k n : Nat) : ofBytes (toBytes k n) = n % 2 ^ (8 * k) := by
  refine Nat.eq_of_testBit_eq fun t => ?_
  rw [ofBytes_testBit, toBytes_length, Nat.testBit_mod_two_pow]
  by_cases ht : t < 8 * k
  · rw [bit_toBytes k n (by omega), show 8 * k - 1 - (8 * k - 1 - t) = t by omega]
  · rw [decide_eq_false ht]
    rfl

theorem toBytes_ofBytes (m : List UInt8) : toBytes m.length (ofBytes m) = m := by
  induction m using List.reverseRecOn with
  | nil => rfl
  | append_singleton m b ih =>
    have hb := b.toNat_lt
    rw [List.length_append, List.length_singleton, ofBytes_snoc]
    show toBytes m.length ((256 * ofBytes m + b.toNat) / 256) ++ [UInt8.ofNat (256 * ofBytes m + b.toNat)] = _
    rw [show (256 * ofBytes m + b.toNat) / 256 = ofBytes m by omega, ih]
    congr 2
    refine UInt8.toNat_inj.mp ?_
    rw [UInt8.toNat_ofNat']
    omega

/-- the bytes see nothing above them -/
theorem toBytes_mod (k n : Nat) : toBytes k (n % 2 ^ (8 * k)) = toBytes k n := by
  have h := toBytes_ofBytes (toBytes k n)
  rwa [toBytes_length, ofBytes_toBytes] at h

end Bits
