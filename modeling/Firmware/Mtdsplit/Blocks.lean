import Firmware.Mtdsplit.Mtd

/-!
# mtdsplit: scanning the erase blocks for an image header

`for (offset = 0; offset < master->size; offset += master->erasesize)` with a body that goes on
or breaks, the partitions a splitter makes, and the fields of headers.

* `blocks`                    the loop, with the variables the body keeps;
* `blocks_hit`, `blocks_out`  where it stops on a device whose blocks have `size_t` offsets;
* `Parts`, `Parts.Inside`     the two partitions: not empty, on the device, apart.
-/

set_option linter.unusedVariables false

namespace Mtdsplit
open Img Word Machine

/-! ## headers -/

/-- a read that has to be complete -/
def Mtd.readAll (mtd : Mtd) (offset len : Nat) : Except Int (List UInt8) :=
  match mtd.read offset len with
  | .error e => .error e
  | .ok d => if d.length ≠ len then .error eio else .ok d

def be32 (buf : List UInt8) (off : Nat) : Nat := (get32 true (slice buf off 4)).toNat
def le32 (buf : List UInt8) (off : Nat) : Nat := (get32 false (slice buf off 4)).toNat

/-- a field read without a conversion -/
def Arch.cpu32 (a : Arch) (buf : List UInt8) (off : Nat) : Nat :=
  (get32 a.big (slice buf off 4)).toNat

/-- difference of `size_t` -/
def Arch.sub (a : Arch) (x y : Nat) : Nat := (x + (a.M - y % a.M)) % a.M

/-- difference of `uint64_t` -/
def sub64 (x y : Nat) : Nat := (x + (18446744073709551616 - y)) % 18446744073709551616

theorem sub64_of_le {x y : Nat} (h : y ≤ x) (hx : x < 18446744073709551616) :
    sub64 x y = x - y := by
  unfold sub64
  omega

theorem be32_lt (buf : List UInt8) (off : Nat) : be32 buf off < 4294967296 := UInt32.toNat_lt _

theorem le32_lt (buf : List UInt8) (off : Nat) : le32 buf off < 4294967296 := UInt32.toNat_lt _

theorem Arch.sub_of_le {a : Arch} {x y : Nat} (h : y ≤ x) (hx : x < a.M) : a.sub x y = x - y := by
  unfold Arch.sub
  rw [Nat.mod_eq_of_lt (by omega : y < a.M), show x + (a.M - y) = x - y + a.M by omega,
    Nat.add_mod_right, Nat.mod_eq_of_lt (by omega)]

theorem Mtd.readAll_ok {mtd : Mtd} {offset len : Nat} {d : List UInt8} :
    mtd.readAll offset len = .ok d ↔ mtd.read offset len = .ok d ∧ d.length = len := by
  unfold Mtd.readAll
  cases mtd.read offset len with
  | error e => simp
  | ok d' =>
    by_cases hd : d'.length = len
    · simp only [if_neg (not_not.mpr hd), Except.ok.injEq]
      exact ⟨fun h => ⟨h, h ▸ hd⟩, fun h => h.1⟩
    · simp only [if_pos hd]
      constructor
      · intro h
        cases h
      · rintro ⟨h, hl⟩
        cases h
        exact absurd hl hd

/-! ## partitions -/

inductive PartName where
  | kernel
  | rootfs
  | ubi
  | rootfsData
deriving DecidableEq

def rootfsName (t : PartType) : PartName := if t = .ubi then .ubi else .rootfs

structure Part where
  name : PartName
  offset : Nat
  size : Nat
deriving DecidableEq

/-- the two partitions; `kernelIndex` is the place of the kernel in the table -/
structure Parts where
  kernel : Part
  rootfs : Part
  kernelIndex : Nat
deriving DecidableEq

def Part.stop (p : Part) : Nat := p.offset + p.size

def Part.Inside (p : Part) (size : Nat) : Prop := 0 < p.size ∧ p.stop ≤ size

def Part.Disjoint (p q : Part) : Prop := p.stop ≤ q.offset ∨ q.stop ≤ p.offset

/-- both partitions are not empty and lie on the device, and they do not overlap -/
def Parts.Inside (p : Parts) (mtd : Mtd) : Prop :=
  p.kernel.Inside mtd.size ∧ p.rootfs.Inside mtd.size ∧ p.kernel.Disjoint p.rootfs

instance (p : Part) (size : Nat) : Decidable (p.Inside size) := inferInstanceAs (Decidable (_ ∧ _))
instance (p q : Part) : Decidable (p.Disjoint q) := inferInstanceAs (Decidable (_ ∨ _))
instance (p : Parts) (mtd : Mtd) : Decidable (p.Inside mtd) :=
  inferInstanceAs (Decidable (_ ∧ _ ∧ _))

/-! ## the loop -/

section
variable {τ β : Type} {a : Arch} {mtd : Mtd} {body : Nat → τ → τ ⊕ β}

def nextBlock (a : Arch) (mtd : Mtd) (body : Nat → τ → τ ⊕ β) (s : Nat × τ) : Nat × τ :=
  (a.size (s.1 + mtd.erasesize), (body s.1 s.2).elim id fun _ => s.2)

/-- `.inl` goes on with the next block, `.inr` breaks -/
def blocks (a : Arch) (mtd : Mtd) (body : Nat → τ → τ ⊕ β) :
    Nat × τ → (Nat × τ) ⊕ ((Nat × τ) × Option β) :=
  Scan.step (fun s => s.1 < mtd.size) (nextBlock a mtd body) fun s => (body s.1 s.2).getRight?

theorem nextBlock_iterate (s : τ) (k : Nat) :
    ((nextBlock a mtd body)^[k] (0, s)).1 = a.size (k * mtd.erasesize) := by
  induction k with
  | zero =>
    rw [Nat.zero_mul]
    exact (Nat.zero_mod _).symm
  | succ k ih =>
    rw [Function.iterate_succ_apply']
    show a.size (((nextBlock a mtd body)^[k] (0, s)).1 + mtd.erasesize) = _
    rw [ih, Nat.succ_mul]
    exact Nat.mod_add_mod _ _ _

/-- the body goes on at every block before `n` -/
def GoesOn (mtd : Mtd) (body : Nat → τ → τ ⊕ β) (n : Nat) : Prop :=
  ∀ o, mtd.erasesize ∣ o → o < n → ∀ s, ∃ s', body o s = .inl s'

theorem blocks_go {o : Nat} {s s' : τ} (ho : o < mtd.size) (hb : body o s = .inl s') :
    blocks a mtd body (o, s) = .inl (a.size (o + mtd.erasesize), s') := by
  have hnone : (body o s).getRight? = none := by rw [hb]; rfl
  have h : blocks a mtd body (o, s) =
      .inl (a.size (o + mtd.erasesize), (body o s).elim id fun _ => s) :=
    Scan.step_skip (x := (o, s)) (decide_eq_true ho) hnone
  rw [h, hb]
  rfl

theorem blocks_break {o : Nat} {s : τ} {b : β} (ho : o < mtd.size) (hb : body o s = .inr b) :
    blocks a mtd body (o, s) = .inr ((o, s), some b) :=
  Scan.step_hit (x := (o, s)) (decide_eq_true ho) (by rw [hb]; rfl)

theorem blocks_end {o : Nat} {s : τ} (ho : mtd.size ≤ o) :
    blocks a mtd body (o, s) = .inr ((o, s), none) :=
  Scan.step_out (x := (o, s)) (decide_eq_false (by omega))

/-- what the body keeps from block to block holds at the end -/
theorem blocks_invariant {P : Nat → τ → Prop} {Q : (Nat × τ) × Option β → Prop}
    (hgo : ∀ o s s', P o s → o < mtd.size → body o s = .inl s' →
      P (a.size (o + mtd.erasesize)) s')
    (hbreak : ∀ o s b, P o s → o < mtd.size → body o s = .inr b → Q ((o, s), some b))
    (hend : ∀ o s, P o s → mtd.size ≤ o → Q ((o, s), none)) {o : Nat} {s : τ}
    {r : (Nat × τ) × Option β} (h : Ends (blocks a mtd body) (o, s) r) (hs : P o s) : Q r := by
  refine Ends.invariant (P := fun x => P x.1 x.2) (Q := Q) ?_ ?_ h hs
  · rintro ⟨o, s⟩ x hx hstep
    by_cases ho : o < mtd.size
    · cases hb : body o s with
      | inl s' =>
        rw [blocks_go ho hb] at hstep
        cases hstep
        exact hgo o s s' hx ho hb
      | inr b =>
        rw [blocks_break ho hb] at hstep
        cases hstep
    · rw [blocks_end (Nat.not_lt.mp ho)] at hstep
      cases hstep
  · rintro ⟨o, s⟩ x hx hstep
    by_cases ho : o < mtd.size
    · cases hb : body o s with
      | inl s' =>
        rw [blocks_go ho hb] at hstep
        cases hstep
      | inr b =>
        rw [blocks_break ho hb] at hstep
        cases hstep
        exact hbreak o s b hx ho hb
    · rw [blocks_end (Nat.not_lt.mp ho)] at hstep
      cases hstep
      exact hend o s hx (Nat.not_lt.mp ho)

theorem Mtd.le_ceil (mtd : Mtd) (n : Nat) : n ≤ mtd.ceil n := by
  have h := Nat.lt_mul_div_succ (n + mtd.erasesize - 1) mtd.erase_pos
  have he := mtd.erase_pos
  unfold ceil
  rw [Nat.mul_comm, Nat.add_mul] at h
  omega

theorem Mtd.ceil_of_dvd {n : Nat} (h : mtd.erasesize ∣ n) : mtd.ceil n = n := by
  obtain ⟨k, rfl⟩ := h
  have he := mtd.erase_pos
  unfold ceil
  rw [Nat.add_sub_assoc he, Nat.mul_add_div he, Nat.div_eq_of_lt (by omega), Nat.add_zero,
    Nat.mul_comm]

/-- two boundaries less than a block apart are one -/
theorem last_block {o o' : Nat} (hd : mtd.erasesize ∣ o) (hd' : mtd.erasesize ∣ o')
    (h : o < o' + mtd.erasesize) (h' : o' < o + mtd.erasesize) : o = o' := by
  obtain ⟨k, rfl⟩ := hd
  obtain ⟨k', rfl⟩ := hd'
  rw [← Nat.mul_succ] at h h'
  have h1 := Nat.lt_of_mul_lt_mul_left h
  have h2 := Nat.lt_of_mul_lt_mul_left h'
  rw [show k = k' by omega]

/-- the loop comes to block `k` if nothing stops it before -/
theorem blocks_leads {k : Nat} (hM : k * mtd.erasesize < a.M)
    (hk : ∀ j, j < k → j * mtd.erasesize < mtd.size) (s : τ)
    (hgo : GoesOn mtd body (k * mtd.erasesize)) :
    ∃ s', Leads (blocks a mtd body) (0, s) (k * mtd.erasesize, s') ∧ (k = 0 → s' = s) ∧
      ∀ j, k = j + 1 → ∃ s'', body (j * mtd.erasesize) s'' = .inl s' := by
  induction k with
  | zero =>
    rw [Nat.zero_mul]
    exact ⟨s, Leads.refl _, fun _ => rfl, fun j hj => absurd hj (by omega)⟩
  | succ k ih =>
    have hlt : k * mtd.erasesize < (k + 1) * mtd.erasesize :=
      Nat.mul_lt_mul_of_pos_right (Nat.lt_succ_self k) mtd.erase_pos
    obtain ⟨s1, h1, -, -⟩ := ih (Nat.lt_trans hlt hM) (fun j hj => hk j (by omega))
      fun o ho hlt' => hgo o ho (Nat.lt_trans hlt' hlt)
    obtain ⟨s2, h2⟩ := hgo (k * mtd.erasesize) (Nat.dvd_mul_left _ _) hlt s1
    have hstep : blocks a mtd body (k * mtd.erasesize, s1) =
        .inl (a.size (k * mtd.erasesize + mtd.erasesize), s2) :=
      blocks_go (hk k (Nat.lt_succ_self k)) h2
    rw [← Nat.succ_mul, Arch.size_of_lt hM] at hstep
    refine ⟨s2, h1.trans (Leads.one hstep), fun h => absurd h (by omega), fun j hj => ?_⟩
    obtain rfl : j = k := by omega
    exact ⟨s1, h2⟩

/-- the loop breaks at the first block that says so -/
theorem blocks_hit {o : Nat} {b : β} (s : τ) (hd : mtd.erasesize ∣ o) (ho : o < mtd.size)
    (hM : o < a.M) (hgo : GoesOn mtd body o)
    (hb : ∀ s, body o s = .inr b) : ∃ s', Ends (blocks a mtd body) (0, s) ((o, s'), some b) := by
  obtain ⟨k, rfl⟩ := hd
  rw [Nat.mul_comm] at ho hM hgo hb ⊢
  obtain ⟨s', hl, -, -⟩ := blocks_leads hM (fun j hj => Nat.lt_of_le_of_lt
    (Nat.mul_le_mul_right _ (by omega)) ho) s hgo
  exact ⟨s', hl.ends_iff.mpr (Ends.done (blocks_break ho (hb s')))⟩

/-- no block says so: the loop runs to the end, with what the last block left -/
theorem blocks_out (hfit : mtd.ceil mtd.size < a.M) (s : τ) (hgo : GoesOn mtd body mtd.size) :
    ∃ s', Ends (blocks a mtd body) (0, s) ((mtd.ceil mtd.size, s'), none) ∧
      (mtd.size = 0 → s' = s) ∧ (0 < mtd.size → ∃ o s'', mtd.erasesize ∣ o ∧ o < mtd.size ∧
        mtd.size ≤ o + mtd.erasesize ∧ body o s'' = .inl s') := by
  have he := mtd.erase_pos
  have hk (j : Nat) : j < (mtd.size + mtd.erasesize - 1) / mtd.erasesize →
      j * mtd.erasesize < mtd.size := by
    intro hj
    have := (Nat.le_div_iff_mul_le he).mp hj
    rw [Nat.succ_mul] at this
    omega
  obtain ⟨s', hl, h0, h1⟩ := blocks_leads (show _ < a.M from hfit) hk s fun o hd ho => by
    refine hgo o hd ?_
    obtain ⟨j, rfl⟩ := hd
    rw [Nat.mul_comm] at ho ⊢
    exact hk j (Nat.lt_of_mul_lt_mul_right ho)
  refine ⟨s', hl.ends_iff.mpr (Ends.done (blocks_end (mtd.le_ceil _))), fun hs => h0 ?_,
    fun hs => ?_⟩
  · rw [hs]
    exact Nat.div_eq_of_lt (by omega)
  · obtain ⟨j, hj⟩ : ∃ j, (mtd.size + mtd.erasesize - 1) / mtd.erasesize = j + 1 :=
      ⟨_, (Nat.succ_pred (Nat.ne_of_gt (Nat.div_pos (by omega) he))).symm⟩
    obtain ⟨s'', hs''⟩ := h1 j hj
    refine ⟨j * mtd.erasesize, s'', Nat.dvd_mul_left _ _, hk j (by omega), ?_, hs''⟩
    have := mtd.le_ceil mtd.size
    unfold Mtd.ceil at this
    rw [hj, Nat.succ_mul] at this
    exact this

end

/-! ## small devices -/

theorem twoBlocks_size : 256 < 18446744073709551616 := by decide

theorem twoBlocks_erase : 0 < 128 ∧ 128 < 4294967296 := by decide

/-- two erase blocks that start with `x` and `y` -/
def twoBlocks (x y : List UInt8) : Mtd :=
  Mtd.ofFn 256 128 (fun i => if i < 128 then x.getD i 0 else y.getD (i - 128) 0)
    twoBlocks_size twoBlocks_erase

def hsqs : List UInt8 := put32 false squashfsMagic

end Mtdsplit
