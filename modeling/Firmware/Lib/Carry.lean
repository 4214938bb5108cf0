import Mathlib.Tactic.LinearCombination
import Mathlib.Tactic.Ring
import Firmware.Lib.Bits

/-!
# Carries

Numbers of any length, most significant byte first, are changed byte by byte from some byte on down
to byte 0.

* `loop`        the loop over the index, with a carry;
* `Digit`       a byte operation adds, or subtracts, the byte of a second number;
* `loop_spec`   then the loop adds, or subtracts, that number;
* `loop_one`    with a carry in, a one at the byte it starts from;
* `add_reversed`   a sum in the wrong byte order.
-/

namespace Carry
open Bits

theorem ofBytes_append (m r : List UInt8) : ofBytes (m ++ r) = ofBytes m * 256 ^ r.length + ofBytes r := by
  induction r using List.reverseRecOn with
  | nil =>
    rw [List.append_nil]
    show _ = ofBytes m * 1 + 0
    omega
  | append_singleton r b ih =>
    rw [← List.append_assoc, ofBytes_snoc, ih, ofBytes_snoc, List.length_append]
    show _ = ofBytes m * 256 ^ (r.length + 1) + _
    ring

/-- a number of a given length has one spelling -/
theorem ofBytes_inj (m : List UInt8) : ∀ n : List UInt8, m.length = n.length →
    ofBytes m = ofBytes n → m = n := by
  induction m using List.reverseRecOn with
  | nil =>
    intro n hl h
    exact (List.length_eq_zero_iff.mp hl.symm).symm
  | append_singleton m b ih =>
    intro n hl h
    rw [List.length_append, List.length_singleton] at hl
    obtain ⟨n, e, rfl⟩ : ∃ n₀ e, n = n₀ ++ [e] := ⟨_, _, (List.dropLast_append_getLast
      (List.ne_nil_of_length_eq_add_one hl.symm)).symm⟩
    rw [List.length_append, List.length_singleton] at hl
    rw [ofBytes_snoc, ofBytes_snoc] at h
    have hb := b.toNat_lt
    have he := e.toNat_lt
    rw [ih n (by omega) (by omega), UInt8.toNat_inj.mp (show b.toNat = e.toNat by omega)]

theorem ofBytes_zeros (k : Nat) : ofBytes (List.replicate k 0) = 0 := by
  induction k with
  | zero => rfl
  | succ k ih =>
    rw [List.replicate_succ', ofBytes_snoc, ih]
    rfl

/-- `do { x[idx] = …; carry = …; } while (idx-- > 0);` -/
def loop (digit : Nat → UInt8 → Bool → UInt8 × Bool) : Nat → List UInt8 → Bool → List UInt8 × Bool
  | 0, x, carry =>
    let d := digit 0 (x.getD 0 0) carry
    (x.set 0 d.1, d.2)
  | idx + 1, x, carry =>
    let d := digit (idx + 1) (x.getD (idx + 1) 0) carry
    loop digit idx (x.set (idx + 1) d.1) d.2

/-- the result and the carry out of one byte; `sign` is 1 for a sum and -1 for a difference -/
def Digit (sign : Int) (x y : UInt8) (c : Bool) (r : UInt8 × Bool) : Prop :=
  (r.1.toNat : Int) + sign * (256 * r.2.toNat) = x.toNat + sign * (y.toNat + c.toNat)

theorem getD_mid {α : Type} (m : List α) (b d : α) (r : List α) :
    (m ++ b :: r).getD m.length d = b := by
  rw [List.getD_append_right _ _ _ _ (Nat.le_refl _), Nat.sub_self]
  rfl

theorem set_mid {α : Type} (m : List α) (b d : α) (r : List α) :
    (m ++ b :: r).set m.length d = m ++ d :: r := by
  rw [List.set_append_right _ _ (Nat.le_refl _), Nat.sub_self]
  rfl

theorem loop_length (digit : Nat → UInt8 → Bool → UInt8 × Bool) : ∀ idx x carry,
    (loop digit idx x carry).1.length = x.length
  | 0, x, carry => List.length_set
  | idx + 1, x, carry => by
    unfold loop
    dsimp only
    rw [loop_length digit idx, List.length_set]

/-- **The loop adds** the bytes up to `k`, and leaves the ones behind them alone. -/
theorem loop_spec {sign : Int} {digit : Nat → UInt8 → Bool → UInt8 × Bool} (k : Nat) :
    ∀ (m n r : List UInt8) (c : Bool), m.length = k + 1 → n.length = k + 1 →
    (∀ idx x c, idx ≤ k → Digit sign x (n.getD idx 0) c (digit idx x c)) →
    ∃ m' c', loop digit k (m ++ r) c = (m' ++ r, c') ∧ m'.length = k + 1 ∧
      (ofBytes m' : Int) + sign * (256 ^ (k + 1) * c'.toNat)
        = ofBytes m + sign * (ofBytes n + c.toNat) := by
  induction k with
  | zero =>
    intro m n r c hm hn hd
    obtain ⟨b, rfl⟩ := List.length_eq_one_iff.mp hm
    obtain ⟨e, rfl⟩ := List.length_eq_one_iff.mp hn
    have h : Digit sign b e c (digit 0 b c) := hd 0 b c (Nat.le_refl _)
    refine ⟨[(digit 0 b c).1], (digit 0 b c).2, rfl, rfl, ?_⟩
    have hone : ∀ x : UInt8, ofBytes [x] = x.toNat := by
      intro x
      show 256 * 0 + x.toNat = _
      omega
    rw [hone, hone, hone]
    exact h
  | succ k ih =>
    intro m n r c hm hn hd
    obtain ⟨m, b, rfl⟩ : ∃ m₀ b, m = m₀ ++ [b] := ⟨_, _, (List.dropLast_append_getLast
      (List.ne_nil_of_length_eq_add_one hm)).symm⟩
    obtain ⟨n, e, rfl⟩ : ∃ n₀ e, n = n₀ ++ [e] := ⟨_, _, (List.dropLast_append_getLast
      (List.ne_nil_of_length_eq_add_one hn)).symm⟩
    rw [List.length_append, List.length_singleton] at hm hn
    have hm : m.length = k + 1 := by omega
    have hn : n.length = k + 1 := by omega
    have hlast := hd (k + 1) b c (Nat.le_refl _)
    rw [← hn, getD_mid, hn] at hlast
    generalize he : digit (k + 1) b c = d at hlast
    obtain ⟨m', c', h1, h2, h3⟩ := ih m n (d.1 :: r) d.2 hm hn (fun idx x c hidx => by
      have h := hd idx x c (Nat.le_succ_of_le hidx)
      rwa [List.getD_append _ _ _ _ (by omega)] at h)
    refine ⟨m' ++ [d.1], c', ?_, by rw [List.length_append, h2]; rfl, ?_⟩
    · rw [List.append_assoc, List.append_assoc, List.singleton_append, List.singleton_append]
      unfold loop
      dsimp only
      rw [← hm, getD_mid, set_mid, hm, he, h1]
    · rw [ofBytes_snoc, ofBytes_snoc, ofBytes_snoc]
      unfold Digit at hlast
      push_cast
      linear_combination 256 * h3 + hlast

/-- a number as long as the loop -/
theorem loop_full {sign : Int} {digit : Nat → UInt8 → Bool → UInt8 × Bool} {k : Nat} {m n : List UInt8}
    {c : Bool} (hm : m.length = k + 1) (hn : n.length = k + 1)
    (hd : ∀ idx x c, idx ≤ k → Digit sign x (n.getD idx 0) c (digit idx x c)) :
    (loop digit k m c).1.length = k + 1 ∧
      (ofBytes (loop digit k m c).1 : Int) + sign * (256 ^ (k + 1) * (loop digit k m c).2.toNat)
        = ofBytes m + sign * (ofBytes n + c.toNat) := by
  obtain ⟨m', c', h1, h2, h3⟩ := loop_spec k m n [] c hm hn hd
  rw [List.append_nil, List.append_nil] at h1
  rw [h1]
  exact ⟨h2, h3⟩

/-- a carry into byte `k` -/
theorem loop_one {sign : Int} {digit : Nat → UInt8 → Bool → UInt8 × Bool} {k : Nat} {x : List UInt8}
    (hk : k < x.length) (hd : ∀ idx b c, idx ≤ k → Digit sign b 0 c (digit idx b c)) :
    (ofBytes (loop digit k x true).1 : Int) + sign * (256 ^ x.length * (loop digit k x true).2.toNat)
      = ofBytes x + sign * 256 ^ (x.length - 1 - k) := by
  obtain ⟨m', c', h1, h2, h3⟩ := loop_spec k (x.take (k + 1)) (List.replicate (k + 1) 0)
    (x.drop (k + 1)) true (by rw [List.length_take]; omega) List.length_replicate
    (fun idx b c hidx => by
      rw [show (List.replicate (k + 1) (0 : UInt8)).getD idx 0 = 0 by
        rw [List.getD_eq_getElem?_getD, List.getElem?_replicate]
        split <;> rfl]
      exact hd idx b c hidx)
  rw [List.take_append_drop] at h1
  have hx := ofBytes_append (x.take (k + 1)) (x.drop (k + 1))
  rw [List.take_append_drop] at hx
  rw [h1, hx, ofBytes_append, List.length_drop, show x.length - 1 - k = x.length - (k + 1) by omega]
  rw [ofBytes_zeros, show true.toNat = 1 from rfl] at h3
  have hp : (256 : Int) ^ x.length = 256 ^ (k + 1) * 256 ^ (x.length - (k + 1)) := by
    rw [← pow_add, show k + 1 + (x.length - (k + 1)) = x.length by omega]
  push_cast at h3 ⊢
  rw [hp]
  linear_combination 256 ^ (x.length - (k + 1)) * h3

/-! ## the other byte order -/

theorem ofBytes_mid (u v : List UInt8) (x : UInt8) :
    ofBytes (u ++ x :: v) = (ofBytes u * 256 + x.toNat) * 256 ^ v.length + ofBytes v := by
  rw [List.append_cons, ofBytes_append, ofBytes_snoc, Nat.mul_comm 256]

theorem ofBytes_reverse_inj {u v : List UInt8} (hl : u.length = v.length)
    (h : ofBytes u.reverse = ofBytes v.reverse) : u = v :=
  List.reverse_injective (ofBytes_inj u.reverse v.reverse (by rw [List.length_reverse, hl,
    List.length_reverse]) h)

/-- **The wrong byte order**: a number is added at a byte of the number read backwards. Its carry
goes to the byte behind, so the sum is right as long as there is none. -/
theorem add_reversed {u v p q : List UInt8} {x x' : UInt8} {e k : Nat} (hu : p.length = u.length)
    (hv : q.length = v.length) (he0 : 0 < e) (he : e < 256)
    (h : ofBytes (p ++ x' :: q).reverse + 256 ^ (u.length + v.length + 1) * k
      = ofBytes (u ++ x :: v).reverse + e * 256 ^ u.length) :
    ofBytes (p ++ x' :: q) = ofBytes (u ++ x :: v) + e * 256 ^ v.length ↔ x.toNat + e < 256 := by
  have hrev (u v : List UInt8) (x : UInt8) : ofBytes (u ++ x :: v).reverse
      = 256 ^ u.length * (256 * ofBytes v.reverse + x.toNat) + ofBytes u.reverse := by
    rw [List.reverse_append, List.reverse_cons, List.append_assoc, List.singleton_append, ofBytes_mid,
      List.length_reverse]
    ring
  have hlt (u : List UInt8) : ofBytes u.reverse < 256 ^ u.length := by
    have h := ofBytes_lt u.reverse
    rwa [List.length_reverse, Nat.pow_mul] at h
  -- the bytes before it are the same, and what is behind them carries
  have hu1 := hlt u
  have hu2 := hlt p
  rw [hu] at hu2
  rw [hrev, hrev, hu] at h
  have hP : 0 < 256 ^ u.length := Nat.pow_pos (by decide)
  have h1 : 256 ^ u.length * (256 * ofBytes q.reverse + x'.toNat + 256 ^ (v.length + 1) * k)
      + ofBytes p.reverse = 256 ^ u.length * (256 * ofBytes v.reverse + x.toNat + e) + ofBytes u.reverse := by
    rw [show u.length + v.length + 1 = u.length + (v.length + 1) by omega, Nat.pow_add] at h
    linarith only [h]
  have hU : ofBytes p.reverse = ofBytes u.reverse := by
    have := congrArg (· % 256 ^ u.length) h1
    rwa [Nat.mul_add_mod, Nat.mul_add_mod, Nat.mod_eq_of_lt hu1, Nat.mod_eq_of_lt hu2] at this
  have hV : 256 * ofBytes q.reverse + x'.toNat + 256 ^ (v.length + 1) * k
      = 256 * ofBytes v.reverse + x.toNat + e := by
    rw [hU] at h1
    exact Nat.eq_of_mul_eq_mul_left hP (Nat.add_right_cancel h1)
  obtain rfl := ofBytes_reverse_inj hu hU
  rw [Nat.pow_succ] at hV
  have hx := x.toNat_lt
  have hx' := x'.toNat_lt
  have hv1 := hlt v
  rw [ofBytes_mid, ofBytes_mid, hv]
  constructor
  · intro heq
    by_contra hn
    -- with a carry the byte gets smaller
    have hlow : x'.toNat + 256 = x.toNat + e := by
      generalize 256 ^ v.length = Q at hV
      generalize ofBytes v.reverse = V at hV
      generalize ofBytes q.reverse = V' at hV
      rw [show Q * 256 * k = 256 * (Q * k) by ring] at hV
      omega
    have hb := ofBytes_lt q
    rw [Nat.pow_mul, hv] at hb
    have h2 : (ofBytes p * 256 + x'.toNat + 1) * 256 ^ v.length
        ≤ (ofBytes p * 256 + x.toNat) * 256 ^ v.length := Nat.mul_le_mul_right _ (by omega)
    have h3 : 0 < e * 256 ^ v.length := Nat.mul_pos he0 (Nat.pow_pos (by decide))
    have h4 : 2 ^ 8 = 256 := by norm_num
    rw [h4] at hb
    linarith only [heq, h2, h3, hb]
  · intro hlt'
    have hk : k = 0 := by
      by_contra hk
      have : 256 ^ v.length * 256 * 1 ≤ 256 ^ v.length * 256 * k := Nat.mul_le_mul_left _ (by omega)
      omega
    rw [hk, Nat.mul_zero, Nat.add_zero] at hV
    obtain rfl := ofBytes_reverse_inj hv (by omega)
    rw [show x'.toNat = x.toNat + e by omega]
    ring

end Carry
