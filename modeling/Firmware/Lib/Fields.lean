import Mathlib.Data.Nat.Bitwise
import Mathlib.Logic.Function.Basic

/-!
# Fields of a word

Several fields of `k` bits share a word. They are written by read-modify-write.

* `mask k`          the mask of such a field at the low end;
* `get w s m`       the field at bit `s`;
* `rmw w m v`       the word with the bits of the mask replaced;
* `get_rmw_self`, `get_rmw_other`   what a write does to the fields;
* `Bank`            an array of fields over consecutive registers;
* `Bank.read_write_self`, `Bank.read_write_other`   its writes;
* `Field.read_foldl`   a loop that writes each place once.
-/

set_option linter.unusedVariables false

namespace Field

variable {n : Nat}

def mask (n k : Nat) : BitVec n := BitVec.ofNat n (2 ^ k - 1)

def get (w : BitVec n) (s : Nat) (m : BitVec n) : BitVec n := (w >>> s) &&& m

def rmw (w m v : BitVec n) : BitVec n := (w &&& ~~~m) ||| v

theorem mask_bit (n k i : Nat) : (mask n k).getLsbD i = (decide (i < n) && decide (i < k)) := by
  unfold mask
  rw [BitVec.getLsbD_ofNat, Nat.testBit_two_pow_sub_one]

/-- the field that was written -/
theorem get_rmw_self {s k : Nat} (h : s + k ≤ n) (w v : BitVec n) :
    get (rmw w (mask n k <<< s) ((v &&& mask n k) <<< s)) s (mask n k) = v &&& mask n k := by
  refine BitVec.eq_of_getLsbD_eq fun i hi => ?_
  unfold get rmw
  simp only [BitVec.getLsbD_and, BitVec.getLsbD_or, BitVec.getLsbD_not, BitVec.getLsbD_ushiftRight,
    BitVec.getLsbD_shiftLeft, mask_bit, Nat.add_sub_cancel_left]
  by_cases hk : i < k
  · have h1 : s + i < n := by omega
    have h2 : ¬ s + i < s := by omega
    simp [hk, h1, h2, hi]
  · simp [hk]

/-- a field beside it -/
theorem get_rmw_other {s s' k : Nat} (h : s + k ≤ s' ∨ s' + k ≤ s) (w v : BitVec n) :
    get (rmw w (mask n k <<< s) ((v &&& mask n k) <<< s)) s' (mask n k) = get w s' (mask n k) := by
  refine BitVec.eq_of_getLsbD_eq fun i hi => ?_
  unfold get rmw
  simp only [BitVec.getLsbD_and, BitVec.getLsbD_or, BitVec.getLsbD_not, BitVec.getLsbD_ushiftRight,
    BitVec.getLsbD_shiftLeft, mask_bit]
  by_cases hk : i < k
  · by_cases hs : s' + i < s
    · by_cases hn : s' + i < n
      · simp [hs, hn]
      · rw [BitVec.getLsbD_of_ge w _ (by omega)]
        simp [hs]
    · have h1 : ¬ s' + i - s < k := by omega
      by_cases hn : s' + i < n
      · simp [h1, hn]
      · rw [BitVec.getLsbD_of_ge w _ (by omega)]
        simp [h1]
  · simp [hk]

/-- a value that fits its field -/
theorem and_mask {k : Nat} {v : BitVec n} (h : v.toNat < 2 ^ k) : v &&& mask n k = v := by
  refine BitVec.eq_of_getLsbD_eq fun i hi => ?_
  rw [BitVec.getLsbD_and, mask_bit]
  by_cases hk : i < k
  · simp [hk, hi]
  · have h0 : v.getLsbD i = false :=
      Nat.testBit_lt_two_pow (lt_of_lt_of_le h (Nat.pow_le_pow_right (by omega) (by omega)))
    simp [h0]

end Field

/-! ## banks -/

/-- `per` fields of `width` bits in each of the 32-bit registers from `base` on -/
structure Bank where
  base : Nat
  per : Nat
  width : Nat
  pos : 0 < per
  fits : per * width ≤ 32

namespace Bank

variable (b : Bank)

def addr (i : Nat) : Nat := b.base + 4 * (i / b.per)

def shift (i : Nat) : Nat := b.width * (i % b.per)

def mask : BitVec 32 := Field.mask 32 b.width

def read (r : Nat → BitVec 32) (i : Nat) : BitVec 32 := Field.get (r (b.addr i)) (b.shift i) b.mask

def write (r : Nat → BitVec 32) (i : Nat) (v : BitVec 32) : Nat → BitVec 32 :=
  Function.update r (b.addr i)
    (Field.rmw (r (b.addr i)) (b.mask <<< b.shift i) ((v &&& b.mask) <<< b.shift i))

theorem shift_add_width (i : Nat) : b.shift i + b.width ≤ 32 := by
  have h : i % b.per + 1 ≤ b.per := Nat.mod_lt i b.pos
  calc b.shift i + b.width = b.width * (i % b.per + 1) := by rw [shift, Nat.mul_succ]
    _ ≤ b.width * b.per := Nat.mul_le_mul_left _ h
    _ = b.per * b.width := Nat.mul_comm ..
    _ ≤ 32 := b.fits

/-- two fields of one register -/
theorem shift_disjoint {i j : Nat} (hij : i ≠ j) (ha : b.addr i = b.addr j) :
    b.shift i + b.width ≤ b.shift j ∨ b.shift j + b.width ≤ b.shift i := by
  have hq : i / b.per = j / b.per := by
    unfold addr at ha
    omega
  have hr : i % b.per ≠ j % b.per := by
    intro hr
    apply hij
    rw [← Nat.div_add_mod i b.per, ← Nat.div_add_mod j b.per, hq, hr]
  have hlt : ∀ p q : Nat, p < q → b.width * p + b.width ≤ b.width * q := by
    intro p q hpq
    rw [← Nat.mul_succ]
    exact Nat.mul_le_mul_left _ hpq
  obtain h | h := Nat.lt_or_gt_of_ne hr
  · exact Or.inl (hlt _ _ h)
  · exact Or.inr (hlt _ _ h)

theorem read_write_self (r : Nat → BitVec 32) (i : Nat) (v : BitVec 32) :
    b.read (b.write r i v) i = v &&& b.mask := by
  unfold read write
  rw [Function.update_self]
  exact Field.get_rmw_self (b.shift_add_width i) _ _

theorem read_write_other (r : Nat → BitVec 32) {i j : Nat} (hij : i ≠ j) (v : BitVec 32) :
    b.read (b.write r i v) j = b.read r j := by
  unfold read write
  by_cases ha : b.addr j = b.addr i
  · rw [ha, Function.update_self]
    exact Field.get_rmw_other (b.shift_disjoint hij ha.symm) _ _
  · rw [Function.update_of_ne ha]

theorem read_congr {r r' : Nat → BitVec 32} {i : Nat} (h : r' (b.addr i) = r (b.addr i)) :
    b.read r' i = b.read r i := by
  rw [read, h, read]

theorem write_of_ne (r : Nat → BitVec 32) (i : Nat) (v : BitVec 32) {a : Nat} (h : a ≠ b.addr i) :
    b.write r i v a = r a := Function.update_of_ne h ..

end Bank

/-! ## loops -/

/-- a loop that writes one place per round, with a value of its own for each place -/
theorem Field.read_foldl {ι σ β : Type*} [DecidableEq ι] {write : σ → ι → σ} {val : ι → β}
    (read : σ → ι → β) (hself : ∀ s i, read (write s i) i = val i)
    (hother : ∀ s i j, i ≠ j → read (write s i) j = read s j) (l : List ι) (s : σ) (j : ι) :
    read (l.foldl write s) j = if j ∈ l then val j else read s j := by
  induction l generalizing s with
  | nil => rfl
  | cons i l ih =>
    rw [List.foldl_cons, ih]
    by_cases hl : j ∈ l
    · rw [if_pos hl, if_pos (List.mem_cons_of_mem _ hl)]
    · rw [if_neg hl]
      by_cases hij : i = j
      · rw [hij, hself, if_pos (List.mem_cons_self ..)]
      · rw [hother s i j hij, if_neg]
        intro h
        obtain h | h := List.mem_cons.mp h
        · exact hij h.symm
        · exact hl h
