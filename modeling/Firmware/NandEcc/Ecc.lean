import Mathlib.Data.List.GetD
import Mathlib.Data.Nat.Bitwise
import Mathlib.Tactic.IntervalCases

/-!
# nand_ecc

The 22 parity bits of a block of 256 bytes: 8 pairs for the number of the byte, 3 for the number of
the bit.

* `nandCalculateEcc`   `nand_calculate_ecc`, with the two orders of the line parity;
* `delta`              what one flipped bit changes in the registers;
* `single_bit`         it changes one bit of each pair, and tells which bit was flipped;
* `double_bit`         two flipped bits never look like that;
* `ecc_identifies`     both, for every block.

The registers are linear in the data: that is a fact about the table.
-/

set_option linter.unusedVariables false

namespace NandEcc

/-- `nand_ecc_precalc_table` -/
def precalcTable : List UInt8 :=
  [0x00, 0x55, 0x56, 0x03, 0x59, 0x0c, 0x0f, 0x5a, 0x5a, 0x0f, 0x0c, 0x59, 0x03, 0x56, 0x55, 0x00,
    0x65, 0x30, 0x33, 0x66, 0x3c, 0x69, 0x6a, 0x3f, 0x3f, 0x6a, 0x69, 0x3c, 0x66, 0x33, 0x30, 0x65,
    0x66, 0x33, 0x30, 0x65, 0x3f, 0x6a, 0x69, 0x3c, 0x3c, 0x69, 0x6a, 0x3f, 0x65, 0x30, 0x33, 0x66,
    0x03, 0x56, 0x55, 0x00, 0x5a, 0x0f, 0x0c, 0x59, 0x59, 0x0c, 0x0f, 0x5a, 0x00, 0x55, 0x56, 0x03,
    0x69, 0x3c, 0x3f, 0x6a, 0x30, 0x65, 0x66, 0x33, 0x33, 0x66, 0x65, 0x30, 0x6a, 0x3f, 0x3c, 0x69,
    0x0c, 0x59, 0x5a, 0x0f, 0x55, 0x00, 0x03, 0x56, 0x56, 0x03, 0x00, 0x55, 0x0f, 0x5a, 0x59, 0x0c,
    0x0f, 0x5a, 0x59, 0x0c, 0x56, 0x03, 0x00, 0x55, 0x55, 0x00, 0x03, 0x56, 0x0c, 0x59, 0x5a, 0x0f,
    0x6a, 0x3f, 0x3c, 0x69, 0x33, 0x66, 0x65, 0x30, 0x30, 0x65, 0x66, 0x33, 0x69, 0x3c, 0x3f, 0x6a,
    0x6a, 0x3f, 0x3c, 0x69, 0x33, 0x66, 0x65, 0x30, 0x30, 0x65, 0x66, 0x33, 0x69, 0x3c, 0x3f, 0x6a,
    0x0f, 0x5a, 0x59, 0x0c, 0x56, 0x03, 0x00, 0x55, 0x55, 0x00, 0x03, 0x56, 0x0c, 0x59, 0x5a, 0x0f,
    0x0c, 0x59, 0x5a, 0x0f, 0x55, 0x00, 0x03, 0x56, 0x56, 0x03, 0x00, 0x55, 0x0f, 0x5a, 0x59, 0x0c,
    0x69, 0x3c, 0x3f, 0x6a, 0x30, 0x65, 0x66, 0x33, 0x33, 0x66, 0x65, 0x30, 0x6a, 0x3f, 0x3c, 0x69,
    0x03, 0x56, 0x55, 0x00, 0x5a, 0x0f, 0x0c, 0x59, 0x59, 0x0c, 0x0f, 0x5a, 0x00, 0x55, 0x56, 0x03,
    0x66, 0x33, 0x30, 0x65, 0x3f, 0x6a, 0x69, 0x3c, 0x3c, 0x69, 0x6a, 0x3f, 0x65, 0x30, 0x33, 0x66,
    0x65, 0x30, 0x33, 0x66, 0x3c, 0x69, 0x6a, 0x3f, 0x3f, 0x6a, 0x69, 0x3c, 0x66, 0x33, 0x30, 0x65,
    0x00, 0x55, 0x56, 0x03, 0x59, 0x0c, 0x0f, 0x5a, 0x5a, 0x0f, 0x0c, 0x59, 0x03, 0x56, 0x55, 0x00]

structure Regs where
  reg1 : UInt8
  reg2 : UInt8
  reg3 : UInt8

/-- the loop with the byte `b` at `i` -/
def Regs.turn (r : Regs) (i b : UInt8) : Regs :=
  let idx := precalcTable.getD b.toNat 0
  let reg1 := r.reg1 ^^^ (idx &&& 0x3f)
  if idx &&& 0x40 ≠ 0 then ⟨reg1, r.reg2 ^^^ ~~~i, r.reg3 ^^^ i⟩ else ⟨reg1, r.reg2, r.reg3⟩

/-- the loop from `i` on -/
def parity : List UInt8 → Nat → Regs → Regs
  | [], _, r => r
  | b :: dat, i, r => parity dat (i + 1) (r.turn (UInt8.ofNat i) b)

def tmp1 (r : Regs) : UInt8 :=
  (r.reg3 &&& 0x80) >>> 0 ||| (r.reg2 &&& 0x80) >>> 1 ||| (r.reg3 &&& 0x40) >>> 1 |||
  (r.reg2 &&& 0x40) >>> 2 ||| (r.reg3 &&& 0x20) >>> 2 ||| (r.reg2 &&& 0x20) >>> 3 |||
  (r.reg3 &&& 0x10) >>> 3 ||| (r.reg2 &&& 0x10) >>> 4

def tmp2 (r : Regs) : UInt8 :=
  (r.reg3 &&& 0x08) <<< 4 ||| (r.reg2 &&& 0x08) <<< 3 ||| (r.reg3 &&& 0x04) <<< 3 |||
  (r.reg2 &&& 0x04) <<< 2 ||| (r.reg3 &&& 0x02) <<< 2 ||| (r.reg2 &&& 0x02) <<< 1 |||
  (r.reg3 &&& 0x01) <<< 1 ||| (r.reg2 &&& 0x01) <<< 0

/-- `ecc_code` -/
structure Code where
  c0 : UInt8
  c1 : UInt8
  c2 : UInt8
  deriving DecidableEq

/-- `smc` is `CONFIG_MTD_NAND_ECC_SMC` -/
def Regs.code (smc : Bool) (r : Regs) : Code :=
  let c2 := (~~~r.reg1) <<< 2 ||| 0x03
  if smc then ⟨~~~(tmp2 r), ~~~(tmp1 r), c2⟩ else ⟨~~~(tmp1 r), ~~~(tmp2 r), c2⟩

def nandCalculateEcc (smc : Bool) (dat : Vector UInt8 256) : Code :=
  (parity dat.toList 0 ⟨0, 0, 0⟩).code smc

/-! ## patterns -/

def Code.xor (a b : Code) : Code := ⟨a.c0 ^^^ b.c0, a.c1 ^^^ b.c1, a.c2 ^^^ b.c2⟩

/-- bit `k` of the 24 bits, with the line parity in front whatever its order -/
def Code.bit (smc : Bool) (c : Code) (k : Nat) : Bool :=
  if k < 8 then c.c2.toNat.testBit k
  else if k < 16 then (if smc then c.c0 else c.c1).toNat.testBit (k - 8)
  else (if smc then c.c1 else c.c0).toNat.testBit (k - 16)

/-- pair `k` has exactly one bit: the column pairs are those from 1 to 3, the line pairs those from 4 to 11 -/
def Code.One (smc : Bool) (c : Code) (k : Nat) : Prop :=
  c.bit smc (2 * k) ≠ c.bit smc (2 * k + 1)

instance (smc : Bool) (c : Code) (k : Nat) : Decidable (c.One smc k) :=
  inferInstanceAs (Decidable (_ ≠ _))

/-- the pattern of a single error -/
def Code.Single (smc : Bool) (c : Code) : Prop := ∀ k < 11, c.One smc (k + 1)

instance (smc : Bool) (c : Code) : Decidable (c.Single smc) :=
  inferInstanceAs (Decidable (∀ k < 11, _))

/-- the number whose bits are the upper bits of the `n` pairs from `k` on -/
def Code.read (smc : Bool) (c : Code) (k : Nat) : Nat → Nat
  | 0 => 0
  | n + 1 => c.read smc k n + if c.bit smc (2 * (k + n) + 1) then 2 ^ n else 0

/-- the byte and the bit that a pattern names -/
def Code.locate (smc : Bool) (c : Code) : Nat × Nat := (c.read smc 4 8, c.read smc 1 3)

/-! ## the registers -/

def Regs.xor (r d : Regs) : Regs := ⟨r.reg1 ^^^ d.reg1, r.reg2 ^^^ d.reg2, r.reg3 ^^^ d.reg3⟩

theorem Regs.xor_assoc (a b c : Regs) : (a.xor b).xor c = a.xor (b.xor c) := by
  unfold Regs.xor
  simp only [UInt8.xor_assoc]

theorem Regs.xor_right_comm (a b c : Regs) : (a.xor b).xor c = (a.xor c).xor b := by
  have h (x y z : UInt8) : x ^^^ y ^^^ z = x ^^^ z ^^^ y := by
    rw [UInt8.xor_assoc, UInt8.xor_comm y, UInt8.xor_assoc]
  unfold Regs.xor
  simp only [h]

/-- what the byte `b` at `i` adds -/
def term (i b : UInt8) : Regs :=
  let idx := precalcTable.getD b.toNat 0
  if idx &&& 0x40 ≠ 0 then ⟨idx &&& 0x3f, ~~~i, i⟩ else ⟨idx &&& 0x3f, 0, 0⟩

theorem turn_eq (r : Regs) (i b : UInt8) : r.turn i b = r.xor (term i b) := by
  unfold Regs.turn term
  simp only
  split
  · rfl
  · unfold Regs.xor
    rw [UInt8.xor_zero, UInt8.xor_zero]

/-- what bit `j` of byte `i` changes -/
def delta (i j : Nat) : Regs :=
  ⟨precalcTable.getD (2 ^ j) 0 &&& 0x3f, ~~~(UInt8.ofNat i), UInt8.ofNat i⟩

def flip (b : UInt8) (j : Nat) : UInt8 := b ^^^ UInt8.ofNat (2 ^ j)

/-- the exclusive or of the `ts` at the bits of `b` from `k` on -/
def column (b : Nat) : List UInt8 → Nat → UInt8
  | [], _ => 0
  | t :: ts, k => (if b.testBit k then t else 0) ^^^ column b ts (k + 1)

def columns : List UInt8 := [0x55, 0x56, 0x59, 0x5a, 0x65, 0x66, 0x69, 0x6a]

/-- **The table** is linear. -/
theorem precalcTable_eq : precalcTable = (List.range 256).map fun b => column b columns 0 := by
  decide +kernel

theorem table_eq {b : Nat} (h : b < 256) : precalcTable.getD b 0 = column b columns 0 := by
  rw [precalcTable_eq, List.getD_eq_getElem?_getD, List.getElem?_map, List.getElem?_range h]
  rfl

theorem column_xor (a b : Nat) : ∀ (ts : List UInt8) (k : Nat),
    column (a ^^^ b) ts k = column a ts k ^^^ column b ts k
  | [], _ => UInt8.xor_self.symm
  | t :: ts, k => by
    have h : (if (a ^^^ b).testBit k then t else 0)
        = (if a.testBit k then t else 0) ^^^ if b.testBit k then t else 0 := by
      rw [Nat.testBit_xor]
      cases a.testBit k <;> cases b.testBit k <;> simp
    unfold column
    rw [column_xor a b ts, h, UInt8.xor_assoc, UInt8.xor_assoc, ← UInt8.xor_assoc _ (column a ts _),
      UInt8.xor_comm _ (column a ts _), UInt8.xor_assoc]

/-- a flipped bit changes the parity of the byte -/
theorem table_odd : ∀ j < 8, precalcTable.getD (2 ^ j) 0 &&& 0x40 = 0x40 := by decide +kernel

theorem table_flip (b : UInt8) {j : Nat} (hj : j < 8) : precalcTable.getD (flip b j).toNat 0
    = precalcTable.getD b.toNat 0 ^^^ precalcTable.getD (2 ^ j) 0 := by
  have hlt : 2 ^ j < 256 := Nat.pow_lt_pow_right (by decide) hj
  rw [table_eq (flip b j).toNat_lt, table_eq b.toNat_lt, table_eq hlt, ← column_xor]
  unfold flip
  rw [UInt8.toNat_xor, UInt8.toNat_ofNat_of_lt' hlt]

theorem and_xor_distrib (x y m : UInt8) : (x ^^^ y) &&& m = (x &&& m) ^^^ (y &&& m) := by
  refine UInt8.toNat_inj.mp (Nat.eq_of_testBit_eq fun k => ?_)
  rw [UInt8.toNat_and, UInt8.toNat_xor, UInt8.toNat_xor, UInt8.toNat_and, UInt8.toNat_and,
    Nat.and_xor_distrib_right]

theorem and_mask_cases (x : UInt8) : x &&& 0x40 = 0 ∨ x &&& 0x40 = 0x40 := by
  have h : (x &&& 0x40).toNat = (x.toNat.testBit 6).toNat * 2 ^ 6 := by
    rw [UInt8.toNat_and]
    exact Nat.and_two_pow x.toNat 6
  cases hb : x.toNat.testBit 6
  · rw [hb] at h
    exact Or.inl (UInt8.toNat_inj.mp h)
  · rw [hb] at h
    exact Or.inr (UInt8.toNat_inj.mp h)

theorem term_flip (i : Nat) (b : UInt8) {j : Nat} (hj : j < 8) :
    term (UInt8.ofNat i) (flip b j) = (term (UInt8.ofNat i) b).xor (delta i j) := by
  unfold term delta Regs.xor
  simp only [table_flip b hj, and_xor_distrib, table_odd j hj]
  rcases and_mask_cases (precalcTable.getD b.toNat 0) with h | h
  · rw [h, if_pos (by decide), if_neg (by decide)]
    simp only [UInt8.zero_xor]
  · rw [h, if_neg (by decide), if_pos (by decide)]
    simp only [UInt8.xor_self]

theorem parity_xor : ∀ (dat : List UInt8) (i : Nat) (r d : Regs),
    parity dat i (r.xor d) = (parity dat i r).xor d
  | [], _, _, _ => rfl
  | b :: dat, i, r, d => by
    unfold parity
    rw [turn_eq, turn_eq, Regs.xor_right_comm, parity_xor]

/-- **One flipped bit** of the data changes the registers by its own pattern. -/
theorem parity_flip {j : Nat} (hj : j < 8) : ∀ (dat : List UInt8) (i k : Nat) (b : UInt8) (r : Regs),
    dat[k]? = some b → parity (dat.set k (flip b j)) i r = (parity dat i r).xor (delta (i + k) j)
  | [], _, _, _, _, h => nomatch h
  | c :: dat, i, 0, b, r, h => by
    obtain rfl := Option.some.inj h
    show parity dat (i + 1) (r.turn (UInt8.ofNat i) (flip c j)) = (parity dat (i + 1) _).xor _
    rw [turn_eq, turn_eq, term_flip i c hj, ← Regs.xor_assoc, parity_xor]
    rfl
  | c :: dat, i, k + 1, b, r, h => by
    show parity (dat.set k (flip b j)) (i + 1) _ = (parity dat (i + 1) _).xor _
    rw [parity_flip hj dat (i + 1) k b _ h, show i + 1 + k = i + (k + 1) by omega]

/-! ## the bits of the code -/

theorem mask_bit (k : Nat) : Nat.testBit 1 k = decide (0 = k) ∧ Nat.testBit 2 k = decide (1 = k) ∧
    Nat.testBit 4 k = decide (2 = k) ∧ Nat.testBit 8 k = decide (3 = k) ∧
    Nat.testBit 16 k = decide (4 = k) ∧ Nat.testBit 32 k = decide (5 = k) ∧
    Nat.testBit 64 k = decide (6 = k) ∧ Nat.testBit 128 k = decide (7 = k) :=
  ⟨Nat.testBit_two_pow (n := 0), Nat.testBit_two_pow (n := 1), Nat.testBit_two_pow (n := 2),
    Nat.testBit_two_pow (n := 3), Nat.testBit_two_pow (n := 4), Nat.testBit_two_pow (n := 5),
    Nat.testBit_two_pow (n := 6), Nat.testBit_two_pow (n := 7)⟩

/-- the upper halves of `reg3` and `reg2`, interleaved -/
theorem tmp1_bit (r : Regs) {k : Nat} (hk : k < 8) : (tmp1 r).toNat.testBit k
    = (if k % 2 = 1 then r.reg3 else r.reg2).toNat.testBit (4 + k / 2) := by
  unfold tmp1
  simp only [UInt8.toNat_or, UInt8.toNat_and, UInt8.toNat_shiftRight, Nat.testBit_or,
    Nat.testBit_and, Nat.testBit_shiftRight]
  interval_cases k <;> simp [mask_bit]

/-- the lower halves -/
theorem tmp2_bit (r : Regs) {k : Nat} (hk : k < 8) : (tmp2 r).toNat.testBit k
    = (if k % 2 = 1 then r.reg3 else r.reg2).toNat.testBit (k / 2) := by
  unfold tmp2
  simp only [UInt8.toNat_or, UInt8.toNat_and, UInt8.toNat_shiftLeft, Nat.testBit_or,
    Nat.testBit_and, Nat.testBit_shiftLeft, Nat.testBit_mod_two_pow]
  interval_cases k <;> simp [mask_bit]

theorem not_bit (x : UInt8) {k : Nat} (hk : k < 8) : (~~~x).toNat.testBit k = !x.toNat.testBit k := by
  rw [UInt8.toNat_not, show UInt8.size - 1 - x.toNat = 2 ^ 8 - (x.toNat + 1) by simp,
    Nat.testBit_two_pow_sub_succ x.toNat_lt, decide_eq_true hk, Bool.true_and]

theorem column_bit (x : UInt8) {k : Nat} (hk : k < 8) : ((~~~x) <<< 2 ||| 0x03).toNat.testBit k
    = if k < 2 then true else !x.toNat.testBit (k - 2) := by
  rw [UInt8.toNat_or, UInt8.toNat_shiftLeft, Nat.testBit_or, Nat.testBit_mod_two_pow,
    Nat.testBit_shiftLeft, decide_eq_true hk, Bool.true_and]
  show (decide (k ≥ 2) && (~~~x).toNat.testBit (k - 2) || Nat.testBit (2 ^ 2 - 1) k) = _
  rw [Nat.testBit_two_pow_sub_one]
  split
  · next h => rw [decide_eq_true h, Bool.or_true]
  · next h =>
    rw [decide_eq_true (by omega), Bool.true_and, decide_eq_false h, Bool.or_false,
      not_bit x (by omega)]

/-- bit `k` of a change of the registers -/
def Regs.bit (d : Regs) (k : Nat) : Bool :=
  if k < 2 then false
  else if k < 8 then d.reg1.toNat.testBit (k - 2)
  else (if k % 2 = 1 then d.reg3 else d.reg2).toNat.testBit ((k - 8) / 2)

theorem code_bit (smc : Bool) (r : Regs) {k : Nat} (hk : k < 24) :
    (r.code smc).bit smc k = !r.bit k := by
  have h1 : (if smc then (r.code smc).c1 else (r.code smc).c0) = ~~~(tmp1 r) := by
    cases smc <;> rfl
  have h2 : (if smc then (r.code smc).c0 else (r.code smc).c1) = ~~~(tmp2 r) := by
    cases smc <;> rfl
  have h3 : (r.code smc).c2 = (~~~r.reg1) <<< 2 ||| 0x03 := by
    cases smc <;> rfl
  unfold Code.bit Regs.bit
  rw [h1, h2, h3]
  by_cases h : k < 8
  · rw [if_pos h, if_pos h, column_bit _ h]
    split <;> rfl
  · have h2 : ¬k < 2 := fun h' => h (Nat.lt_trans h' (by decide))
    rw [if_neg h, if_neg h2, if_neg h]
    by_cases h' : k < 16
    · rw [if_pos h', not_bit _ (by omega), tmp2_bit r (by omega),
        show (k - 8) % 2 = k % 2 by omega]
    · rw [if_neg h', not_bit _ (by omega), tmp1_bit r (by omega),
        show (k - 16) % 2 = k % 2 by omega, show 4 + (k - 16) / 2 = (k - 8) / 2 by omega]

theorem Code.bit_xor (smc : Bool) (a b : Code) (k : Nat) :
    (a.xor b).bit smc k = (a.bit smc k ^^ b.bit smc k) := by
  have h (x y : UInt8) (n : Nat) :
      (x ^^^ y).toNat.testBit n = (x.toNat.testBit n ^^ y.toNat.testBit n) := by
    rw [UInt8.toNat_xor, Nat.testBit_xor]
  unfold Code.bit Code.xor
  cases smc
  · simp only [Bool.false_eq_true, if_false]
    split
    · exact h _ _ _
    · split <;> exact h _ _ _
  · simp only [if_true]
    split
    · exact h _ _ _
    · split <;> exact h _ _ _

theorem Regs.bit_xor (r d : Regs) (k : Nat) : (r.xor d).bit k = (r.bit k ^^ d.bit k) := by
  unfold Regs.bit Regs.xor
  split
  · rfl
  · split
    · rw [UInt8.toNat_xor, Nat.testBit_xor]
    · split <;> rw [UInt8.toNat_xor, Nat.testBit_xor]

/-- **The change of the code** by a change of the registers, whatever the data. -/
theorem change_bit (smc : Bool) (r d : Regs) {k : Nat} (hk : k < 24) :
    (((r.xor d).code smc).xor (r.code smc)).bit smc k = d.bit k := by
  rw [Code.bit_xor, code_bit smc _ hk, code_bit smc _ hk, Regs.bit_xor]
  cases r.bit k <;> cases d.bit k <;> rfl

/-! ## single errors -/

section
variable {smc : Bool} {c : Code} {d : Regs} (h : ∀ k < 24, c.bit smc k = d.bit k)
include h

theorem one_line {k : Nat} (hk : k < 8) :
    c.One smc (k + 4) ↔ d.reg2.toNat.testBit k ≠ d.reg3.toNat.testBit k := by
  unfold Code.One
  rw [h _ (by omega), h _ (by omega)]
  unfold Regs.bit
  rw [if_neg (by omega), if_neg (by omega), if_neg (by omega), if_neg (by omega), if_neg (by omega),
    if_pos (by omega), show (2 * (k + 4) - 8) / 2 = k by omega,
    show (2 * (k + 4) + 1 - 8) / 2 = k by omega]

theorem one_column {k : Nat} (hk : k < 3) :
    c.One smc (k + 1) ↔ d.reg1.toNat.testBit (2 * k) ≠ d.reg1.toNat.testBit (2 * k + 1) := by
  unfold Code.One
  rw [h _ (by omega), h _ (by omega)]
  unfold Regs.bit
  rw [if_neg (by omega), if_pos (by omega), if_neg (by omega), if_pos (by omega)]
  rfl

/-- what is read is what the upper bits of the pairs say -/
theorem read_eq (f : Nat → Bool) (k : Nat) : ∀ {n : Nat}, k + n ≤ 12 →
    (∀ i < n, d.bit (2 * (k + i) + 1) = f i) →
    c.read smc k n = (List.range n).foldl (fun m i => m + if f i then 2 ^ i else 0) 0
  | 0, _, _ => rfl
  | n + 1, hn, hf => by
    unfold Code.read
    rw [h _ (by omega), hf n (by omega), List.range_succ, List.foldl_append,
      read_eq f k (by omega) fun i hi => hf i (by omega)]
    rfl

/-- the number of the byte -/
theorem read_line : c.read smc 4 8 = d.reg3.toNat := by
  have hsum : ∀ b < 256, (List.range 8).foldl (fun m i => m + if b.testBit i then 2 ^ i else 0) 0 = b := by
    decide +kernel
  rw [read_eq h d.reg3.toNat.testBit 4 (by decide), hsum _ d.reg3.toNat_lt]
  intro i hi
  unfold Regs.bit
  rw [if_neg (by omega), if_neg (by omega), if_pos (by omega),
    show (2 * (4 + i) + 1 - 8) / 2 = i by omega]

/-- the number of the bit -/
theorem read_column : c.read smc 1 3 = (List.range 3).foldl
    (fun m i => m + if d.reg1.toNat.testBit (2 * i + 1) then 2 ^ i else 0) 0 := by
  refine read_eq h (fun i => d.reg1.toNat.testBit (2 * i + 1)) 1 (by decide) fun i hi => ?_
  unfold Regs.bit
  rw [if_neg (by omega), if_pos (by omega)]
  congr 1
  omega

end

/-- the column parity of a single bit -/
theorem delta_column : ∀ j < 8, (∀ k < 3, (delta 0 j).reg1.toNat.testBit (2 * k)
      ≠ (delta 0 j).reg1.toNat.testBit (2 * k + 1)) ∧
    (List.range 3).foldl (fun m i => m + if (delta 0 j).reg1.toNat.testBit (2 * i + 1) then 2 ^ i else 0) 0
      = j := by
  decide +kernel

/-- two different bits of a byte have different columns -/
theorem columns_differ : ∀ j < 8, ∀ j' < 8, j ≠ j' →
    ∃ k < 6, ((delta 0 j).reg1 ^^^ (delta 0 j').reg1).toNat.testBit k = true := by
  decide +kernel

/-- the block with bit `j` of byte `i` flipped -/
def flipBit (dat : Vector UInt8 256) (i : Fin 256) (j : Fin 8) : Vector UInt8 256 :=
  dat.set i (flip dat[i] j)

/-- the pattern by which the code of `dat'` differs from that of `dat` -/
def change (smc : Bool) (dat dat' : Vector UInt8 256) : Code :=
  (nandCalculateEcc smc dat').xor (nandCalculateEcc smc dat)

theorem parity_flipBit (dat : Vector UInt8 256) (i : Fin 256) (j : Fin 8) (r : Regs) :
    parity (flipBit dat i j).toList 0 r = (parity dat.toList 0 r).xor (delta i j) := by
  have hget : dat.toList[i.val]? = some dat[i] := by simp
  have h := parity_flip j.isLt dat.toList 0 i.val dat[i] r hget
  rw [Nat.zero_add] at h
  rw [← h]
  unfold flipBit
  rw [Vector.toList_set]

theorem changed (smc : Bool) {dat dat' : Vector UInt8 256} {d : Regs}
    (h : parity dat'.toList 0 ⟨0, 0, 0⟩ = (parity dat.toList 0 ⟨0, 0, 0⟩).xor d) :
    ∀ k < 24, (change smc dat dat').bit smc k = d.bit k := by
  intro k hk
  unfold change nandCalculateEcc
  rw [h, change_bit smc _ _ hk]

theorem zero_bit (smc : Bool) (k : Nat) : Code.bit smc ⟨0, 0, 0⟩ k = false := by
  unfold Code.bit
  cases smc <;> simp

theorem zero_read (smc : Bool) (k : Nat) : ∀ n, Code.read smc ⟨0, 0, 0⟩ k n = 0
  | 0 => rfl
  | n + 1 => by
    unfold Code.read
    rw [zero_read smc k n, zero_bit]
    rfl

/-- **A single error**: one bit of each pair, and they name the bit that was flipped. -/
theorem single_bit (smc : Bool) (dat : Vector UInt8 256) (i : Fin 256) (j : Fin 8) :
    (change smc dat (flipBit dat i j)).Single smc ∧
    (change smc dat (flipBit dat i j)).locate smc = (i.val, j.val) := by
  have h := changed smc (parity_flipBit dat i j ⟨0, 0, 0⟩)
  obtain ⟨hcol, hj⟩ := delta_column j j.isLt
  refine ⟨fun k hk => ?_, ?_⟩
  · by_cases hk3 : k < 3
    · exact (one_column h hk3).mpr (hcol k hk3)
    · obtain ⟨k, rfl⟩ := Nat.exists_eq_add_of_le' (Nat.le_of_not_lt hk3)
      refine (one_line h (by omega)).mpr ?_
      show (~~~(UInt8.ofNat i.val)).toNat.testBit k ≠ _
      rw [not_bit _ (by omega)]
      exact Bool.not_ne_self _
  · unfold Code.locate
    rw [read_line h, read_column h]
    exact Prod.ext (UInt8.toNat_ofNat_of_lt' i.isLt) hj

/-- **A double error** changes the code, and not by the pattern of a single one. -/
theorem double_bit (smc : Bool) (dat : Vector UInt8 256) {i i' : Fin 256} {j j' : Fin 8}
    (hne : (i, j) ≠ (i', j')) :
    change smc dat (flipBit (flipBit dat i j) i' j') ≠ ⟨0, 0, 0⟩ ∧
    ¬(change smc dat (flipBit (flipBit dat i j) i' j')).Single smc := by
  have hpar : parity (flipBit (flipBit dat i j) i' j').toList 0 ⟨0, 0, 0⟩
      = (parity dat.toList 0 ⟨0, 0, 0⟩).xor ((delta i j).xor (delta i' j')) := by
    rw [parity_flipBit, parity_flipBit, Regs.xor_assoc]
  have h := changed smc hpar
  -- both halves of a line pair change alike
  have hline : ((delta i j).xor (delta i' j')).reg2 = ((delta i j).xor (delta i' j')).reg3 :=
    (UInt8.not_xor.trans (by rw [UInt8.xor_not, UInt8.not_not]) : ~~~(UInt8.ofNat i) ^^^ ~~~(UInt8.ofNat i')
      = UInt8.ofNat i ^^^ UInt8.ofNat i')
  refine ⟨fun hz => ?_, fun hs => ?_⟩
  · -- no bit has changed: neither in the line pairs nor in the column pairs
    have hzero (k : Nat) (hk : k < 24) : ((delta i j).xor (delta i' j')).bit k = false := by
      rw [← h k hk, hz]
      exact zero_bit smc k
    have hi : i = i' := by
      have hl := read_line h
      rw [hz, zero_read] at hl
      have h8 : UInt8.ofNat i.val = UInt8.ofNat i'.val :=
        UInt8.xor_eq_zero_iff.mp (UInt8.toNat_inj.mp hl.symm)
      have := congrArg UInt8.toNat h8
      rw [UInt8.toNat_ofNat_of_lt' i.isLt, UInt8.toNat_ofNat_of_lt' i'.isLt] at this
      exact Fin.ext this
    have hj : j = j' := by
      by_contra hjj
      obtain ⟨k, hk, hb⟩ := columns_differ j j.isLt j' j'.isLt (fun e => hjj (Fin.ext e))
      have := hzero (k + 2) (by omega)
      unfold Regs.bit at this
      rw [if_neg (by omega), if_pos (by omega)] at this
      exact Bool.false_ne_true (this.symm.trans hb)
    exact hne (by rw [hi, hj])
  · -- the pair of bit 0 of the number of the byte
    have := (one_line h (show 0 < 8 by decide)).mp (hs 3 (by decide))
    rw [hline] at this
    exact this rfl

/-- **The code** names every single error and misses no double one. -/
theorem ecc_identifies (smc : Bool) (dat : Vector UInt8 256) :
    (∀ i j, (change smc dat (flipBit dat i j)).Single smc ∧
      (change smc dat (flipBit dat i j)).locate smc = (i.val, j.val)) ∧
    ∀ i j i' j', (i, j) ≠ (i', j') →
      change smc dat (flipBit (flipBit dat i j) i' j') ≠ ⟨0, 0, 0⟩ ∧
      ¬(change smc dat (flipBit (flipBit dat i j) i' j')).Single smc :=
  ⟨single_bit smc dat, fun _ _ _ _ => double_bit smc dat⟩

/-- two bits of a block of zeros, far apart -/
theorem ecc_identifies_zeros :
    change false (Vector.replicate 256 0) (flipBit (flipBit (Vector.replicate 256 0) 0 0) 255 7)
      ≠ ⟨0, 0, 0⟩ :=
  ((ecc_identifies false (Vector.replicate 256 0)).2 0 0 255 7 (by decide)).1

end NandEcc
