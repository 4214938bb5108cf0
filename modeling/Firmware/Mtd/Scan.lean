import Firmware.Lib.Walk
import Firmware.Mtd.Nodes

/-!
# mtd: scanning an erase block

`mtd_parse_jffs2data` goes from node to node by the lengths that it reads, which nothing bounds
from below, and looks at a node before it knows whether all of it is there.

* `noteDirent_isSome`        what the scan reads of a directory entry;
* `parseLoop_next`           one turn: where the loop stops, and where it goes on;
* `parseJffs2data_isSome`    as many turns as there are bytes are enough;
* `scanEnds_iff`             the scan comes to an end inside the block exactly when no node on its
                             way leads back to itself and none is cut off by the end of the block.
-/

set_option linter.unusedVariables false

namespace Mtd
open Img Word CInt Relation

/-! ## the property -/

/-- **The scan ends**, after finitely many turns and without a read outside the buffer -/
def ScanEnds (v : Jenv) (dir buf : List UInt8) (s : Jst) : Prop :=
  ∃ fuel r, parseLoop v dir buf fuel 0 s = some r

/-! ## the condition -/

/-- `strncmp` stays in the buffer: byte `i` of the name is looked at when the ones in front of it
agree with `dir`, and none of them is its end -/
def NameInside (dir buf : List UInt8) (off n : Nat) : Prop :=
  ∀ i, i < n → (∀ j, j < i → buf[off + j]? = some (dir.getD j 0) ∧ dir.getD j 0 ≠ 0) →
    off + i < buf.length

/-- what the scan reads of a directory entry: up to `ino`, and the name when it is compared -/
def DirentInside (v : Jenv) (dir buf : List UInt8) (o : Nat) : Prop :=
  o + 24 ≤ buf.length ∧ (dir ≠ [] → load32 v.big buf (o + 12) = some 1 →
    o + 28 < buf.length ∧ NameInside dir buf (o + 40) (buf.getD (o + 28) 0).toNat)

/-- what the scan reads at `o` -/
def NodeInside (v : Jenv) (dir buf : List UInt8) (o : UInt32) : Prop :=
  o.toNat < v.E → o.toNat + 2 ≤ buf.length ∧
    (load16 v.big buf o.toNat = some jffs2MagicBitmask → o.toNat + 8 ≤ buf.length ∧
      (load16 v.big buf (o.toNat + 2) = some jffs2NodetypeDirent →
        DirentInside v dir buf o.toNat))

/-- the length of the node at `o` leads to `o'` -/
def NextNode (v : Jenv) (buf : List UInt8) (o o' : UInt32) : Prop :=
  o.toNat < v.E ∧ load16 v.big buf o.toNat = some jffs2MagicBitmask ∧
    ∃ totlen, load32 v.big buf (o.toNat + 4) = some totlen ∧ o' = o + pad4 totlen

/-! ## reads -/

theorem load_isSome {m : List UInt8} {off n : Nat} : (load m off n).isSome ↔ off + n ≤ m.length := by
  unfold load
  split
  · next h => exact ⟨fun _ => h, fun _ => rfl⟩
  · next h => exact ⟨fun h' => absurd h' (by simp), fun h' => absurd h' h⟩

theorem load32_isSome {big : Bool} {m : List UInt8} {off : Nat} :
    (load32 big m off).isSome ↔ off + 4 ≤ m.length := by
  unfold load32
  rw [Option.isSome_map, load_isSome]

theorem load16_isSome {big : Bool} {m : List UInt8} {off : Nat} :
    (load16 big m off).isSome ↔ off + 2 ≤ m.length := by
  unfold load16
  rw [Option.isSome_map, load_isSome]

theorem nameInside_cons {dir buf : List UInt8} {off n : Nat} (h : off < buf.length)
    (hc : buf[off]? = some (dir.headD 0)) (h0 : dir.headD 0 ≠ 0) :
    NameInside dir buf off (n + 1) ↔ NameInside dir.tail buf (off + 1) n := by
  have hd : ∀ j, dir.getD (j + 1) 0 = dir.tail.getD j 0 := by
    intro j
    cases dir with
    | nil => rfl
    | cons c dir => rfl
  have hd0 : dir.getD 0 0 = dir.headD 0 := by
    cases dir with
    | nil => rfl
    | cons c dir => rfl
  constructor
  · intro hn i hi hj
    have := hn (i + 1) (by omega) (by
      intro j hji
      cases j with
      | zero => exact ⟨hd0 ▸ hc, hd0 ▸ h0⟩
      | succ j =>
        rw [hd, ← Nat.add_assoc, Nat.add_right_comm]
        exact hj j (by omega))
    omega
  · intro hn i hi hj
    cases i with
    | zero => exact h
    | succ i =>
      have := hn i (by omega) (by
        intro j hji
        have := hj (j + 1) (by omega)
        rw [hd, ← Nat.add_assoc, Nat.add_right_comm] at this
        exact this)
      omega

/-- `strncmp` and the bytes it looks at -/
theorem strncmp0_isSome (buf : List UInt8) : ∀ (n off : Nat) (dir : List UInt8),
    (strncmp0 buf n off dir).isSome ↔ NameInside dir buf off n := by
  intro n
  induction n with
  | zero =>
    intro off dir
    exact iff_of_true rfl fun i hi => absurd hi (by omega)
  | succ n ih =>
    intro off dir
    unfold strncmp0 load8
    by_cases h : off < buf.length
    · rw [List.getElem?_eq_getElem h]
      simp only [Option.bind_eq_bind, Option.bind_some]
      -- the comparison stops at the first byte, or goes on behind it
      have hstop : buf[off] ≠ dir.headD 0 ∨ dir.headD 0 = 0 → NameInside dir buf off (n + 1) := by
        intro hs i hi hj
        cases i with
        | zero => exact h
        | succ i =>
          have hd0 : dir.getD 0 0 = dir.headD 0 := by cases dir <;> rfl
          obtain ⟨h1, h2⟩ := hj 0 (by omega)
          rw [Nat.add_zero, hd0, List.getElem?_eq_getElem h] at h1
          rw [hd0] at h2
          exact (hs.elim (fun hs => hs (Option.some.inj h1)) h2).elim
      by_cases hne : buf[off] ≠ dir.headD 0
      · rw [if_pos hne]
        exact iff_of_true rfl (hstop (.inl hne))
      rw [if_neg hne]
      have heq : buf[off] = dir.headD 0 := not_not.mp hne
      by_cases h0 : buf[off] = 0
      · rw [if_pos h0]
        exact iff_of_true rfl (hstop (.inr (heq ▸ h0)))
      · rw [if_neg h0, ih, nameInside_cons h (by rw [List.getElem?_eq_getElem h, heq])
          (heq ▸ h0)]
    · rw [List.getElem?_eq_none (by omega)]
      refine iff_of_false (by simp) fun hn => h ?_
      exact hn 0 (by omega) fun j hj => absurd hj (by omega)

theorem noteNumbers_isSome (v : Jenv) (buf : List UInt8) (o : Nat) (s : Jst) :
    (noteNumbers v buf o s).isSome ↔ o + 24 ≤ buf.length := by
  unfold noteNumbers
  cases h1 : load32 v.big buf (o + 20) with
  | none =>
    have := mt load32_isSome.mpr (by rw [h1]; simp : ¬ (load32 v.big buf (o + 20)).isSome)
    exact iff_of_false (by simp) (by omega)
  | some ino =>
    have := load32_isSome.mp (by rw [h1]; rfl : (load32 v.big buf (o + 20)).isSome)
    obtain ⟨version, h2⟩ := Option.isSome_iff_exists.mp
      (load32_isSome.mpr (by omega : o + 16 + 4 ≤ buf.length) : (load32 v.big buf _).isSome)
    rw [h2]
    exact iff_of_true rfl (by omega)

theorem noteTarget_isSome (v : Jenv) (dir buf : List UInt8) {o : Nat} (s : Jst)
    (h : o + 24 ≤ buf.length) : (noteTarget v dir buf o s).isSome ↔
      (dir ≠ [] → load32 v.big buf (o + 12) = some 1 →
        o + 28 < buf.length ∧ NameInside dir buf (o + 40) (buf.getD (o + 28) 0).toNat) := by
  unfold noteTarget
  by_cases hd : dir = []
  · rw [if_pos hd]
    exact iff_of_true rfl fun h' => absurd hd h'
  obtain ⟨pino, hp⟩ := Option.isSome_iff_exists.mp
    (load32_isSome.mpr (by omega : o + 12 + 4 ≤ buf.length) : (load32 v.big buf _).isSome)
  rw [if_neg hd, hp]
  simp only [Option.bind_eq_bind, Option.bind_some]
  by_cases h1 : pino = 1
  · rw [if_neg (not_not.mpr h1), h1]
    by_cases h28 : o + 28 < buf.length
    · have hn : load8 buf (o + 28) = some (buf.getD (o + 28) 0) := by
        unfold load8
        rw [List.getD_eq_getElem?_getD, List.getElem?_eq_getElem h28]
        rfl
      rw [hn, Option.bind_some, ← strncmp0_isSome]
      cases hs : strncmp0 buf (buf.getD (o + 28) 0).toNat (o + 40) dir with
      | none => exact iff_of_false (by simp) fun h' => absurd (h' hd rfl).2 (by simp)
      | some same =>
        obtain ⟨ino, hi⟩ := Option.isSome_iff_exists.mp
          (load32_isSome.mpr (by omega : o + 20 + 4 ≤ buf.length) : (load32 v.big buf _).isSome)
        refine iff_of_true ?_ fun _ _ => ⟨h28, rfl⟩
        rw [Option.bind_some, hi]
        split <;> rfl
    · have hn : load8 buf (o + 28) = none := List.getElem?_eq_none (by omega)
      rw [hn]
      exact iff_of_false (by simp) fun h' => h28 (h' hd rfl).1
  · rw [if_pos h1]
    exact iff_of_true rfl fun _ h' => absurd (Option.some.inj h') h1

/-- **A directory entry**: the reads are the ones of `DirentInside`. -/
theorem noteDirent_isSome (v : Jenv) (dir buf : List UInt8) (o : Nat) (s : Jst) :
    (noteDirent v dir buf o s).isSome ↔ DirentInside v dir buf o := by
  unfold noteDirent DirentInside
  by_cases h : o + 24 ≤ buf.length
  · rw [← noteTarget_isSome v dir buf s h]
    cases noteTarget v dir buf o s with
    | none => exact iff_of_false (by simp) (by simp)
    | some s₁ => exact iff_of_true ((noteNumbers_isSome v buf o s₁).mpr h) ⟨h, rfl⟩
  · refine iff_of_false (fun h' => h ?_) fun h' => h h'.1
    obtain ⟨r, hr⟩ := Option.isSome_iff_exists.mp h'
    obtain ⟨s₁, -, hn⟩ := Option.bind_eq_some_iff.mp hr
    exact (noteNumbers_isSome v buf o s₁).mp (by rw [hn]; rfl)

/-! ## one turn -/

/-- a turn that comes to its end read inside the buffer, and the rest goes on from the next node -/
theorem parseLoop_some {v : Jenv} {dir buf : List UInt8} {fuel : Nat} {o : UInt32} {s r : Jst}
    (h : parseLoop v dir buf (fuel + 1) o s = some r) : NodeInside v dir buf o ∧
      ∀ o', NextNode v buf o o' → ∃ s', parseLoop v dir buf fuel o' s' = some r := by
  unfold parseLoop at h
  by_cases ho : o.toNat < v.E
  · rw [if_pos ho] at h
    obtain ⟨magic, hm, h⟩ := Option.bind_eq_some_iff.mp h
    have h2 := load16_isSome.mp (by rw [hm]; rfl : (load16 v.big buf o.toNat).isSome)
    by_cases hne : magic ≠ jffs2MagicBitmask
    · have hno : load16 v.big buf o.toNat ≠ some jffs2MagicBitmask := by
        rw [hm]
        exact fun e => hne (Option.some.inj e)
      exact ⟨fun _ => ⟨h2, fun e => absurd e hno⟩, fun o' hn => absurd hn.2.1 hno⟩
    · rw [if_neg hne] at h
      obtain ⟨totlen, ht, h⟩ := Option.bind_eq_some_iff.mp h
      obtain ⟨nodetype, hy, h⟩ := Option.bind_eq_some_iff.mp h
      have h8 := load32_isSome.mp (by rw [ht]; rfl : (load32 v.big buf (o.toNat + 4)).isSome)
      have hnext : ∀ o', NextNode v buf o o' → o' = o + pad4 totlen := by
        rintro o' ⟨-, -, t, ht', rfl⟩
        rw [Option.some.inj (ht.symm.trans ht')]
      by_cases hd : nodetype = jffs2NodetypeDirent
      · rw [if_pos hd] at h
        obtain ⟨s₁, h₁, h⟩ := Option.bind_eq_some_iff.mp h
        have hin := (noteDirent_isSome v dir buf o.toNat s).mp (by rw [h₁]; rfl)
        exact ⟨fun _ => ⟨h2, fun _ => ⟨by omega, fun _ => hin⟩⟩,
          fun o' hn => ⟨s₁, by rw [hnext o' hn]; exact h⟩⟩
      · rw [if_neg hd] at h
        refine ⟨fun _ => ⟨h2, fun _ => ⟨by omega, fun e => absurd ?_ hd⟩⟩,
          fun o' hn => ⟨s, by rw [hnext o' hn]; exact h⟩⟩
        exact Option.some.inj (hy.symm.trans e)
  · exact ⟨fun h' => absurd h' ho, fun o' hn => absurd hn.1 ho⟩

/-- a node inside the buffer: the loop stops there, or goes on from the next one -/
theorem parseLoop_next {v : Jenv} {dir buf : List UInt8} {fuel : Nat} {o : UInt32}
    (hin : NodeInside v dir buf o)
    (ih : ∀ o', NextNode v buf o o' → ∀ s, ∃ r, parseLoop v dir buf fuel o' s = some r) (s : Jst) :
    ∃ r, parseLoop v dir buf (fuel + 1) o s = some r := by
  unfold parseLoop
  by_cases ho : o.toNat < v.E
  · rw [if_pos ho]
    obtain ⟨h2, hin⟩ := hin ho
    obtain ⟨magic, hm⟩ := Option.isSome_iff_exists.mp
      (load16_isSome.mpr h2 : (load16 v.big buf o.toNat).isSome)
    rw [hm]
    simp only [Option.bind_eq_bind, Option.bind_some]
    by_cases hne : magic ≠ jffs2MagicBitmask
    · exact ⟨s, if_pos hne⟩
    · rw [not_not.mp hne] at hm
      obtain ⟨h8, hin⟩ := hin hm
      obtain ⟨totlen, ht⟩ := Option.isSome_iff_exists.mp
        (load32_isSome.mpr (by omega : o.toNat + 4 + 4 ≤ buf.length) : (load32 v.big buf _).isSome)
      obtain ⟨nodetype, hy⟩ := Option.isSome_iff_exists.mp
        (load16_isSome.mpr (by omega : o.toNat + 2 + 2 ≤ buf.length) : (load16 v.big buf _).isSome)
      have hnext : NextNode v buf o (o + pad4 totlen) := ⟨ho, hm, totlen, ht, rfl⟩
      rw [if_neg hne, ht, Option.bind_some, hy, Option.bind_some]
      by_cases hd : nodetype = jffs2NodetypeDirent
      · rw [if_pos hd]
        obtain ⟨s₁, h₁⟩ := Option.isSome_iff_exists.mp
          ((noteDirent_isSome v dir buf o.toNat s).mpr (hin (by rw [hy, hd])))
        rw [h₁]
        exact ih _ hnext s₁
      · rw [if_neg hd]
        exact ih _ hnext s
  · exact ⟨s, if_neg ho⟩

/-! ## the whole scan -/

/-- the scan from `o` ends within `n` turns -/
def EndsBy (v : Jenv) (dir buf : List UInt8) (n : Nat) (o : UInt32) : Prop :=
  ∃ s r, parseLoop v dir buf n o s = some r

theorem not_endsBy_zero (v : Jenv) (dir buf : List UInt8) (o : UInt32) :
    ¬ EndsBy v dir buf 0 o := by
  rintro ⟨s, r, h⟩
  exact absurd h (by simp [parseLoop])

theorem EndsBy.next {v : Jenv} {dir buf : List UInt8} (n : Nat) (o o' : UInt32)
    (hn : NextNode v buf o o') (h : EndsBy v dir buf (n + 1) o) : EndsBy v dir buf n o' := by
  obtain ⟨s, r, h⟩ := h
  obtain ⟨s', h'⟩ := (parseLoop_some h).2 o' hn
  exact ⟨s', r, h'⟩

/-- every node on the way is inside the buffer, and the way does not come back -/
def WayOut (v : Jenv) (dir buf : List UInt8) : Prop :=
  ∀ o, ReflTransGen (NextNode v buf) 0 o →
    NodeInside v dir buf o ∧ ¬ TransGen (NextNode v buf) o o

theorem WayOut.of_ends {v : Jenv} {dir buf : List UInt8} {n : Nat} (h : EndsBy v dir buf n 0) :
    WayOut v dir buf := by
  intro o ho
  refine ⟨?_, Walk.acyclic_of_ends (not_endsBy_zero v dir buf) EndsBy.next h o ho⟩
  obtain ⟨m, -, s, r, hr⟩ := Walk.ends_of_reached (not_endsBy_zero v dir buf) EndsBy.next ho h
  cases m with
  | zero => exact absurd ⟨s, r, hr⟩ (not_endsBy_zero v dir buf o)
  | succ m => exact (parseLoop_some hr).1

/-- **As many turns as bytes** are enough. -/
theorem WayOut.parse {v : Jenv} {dir buf : List UInt8} (h : WayOut v dir buf) (s : Jst) :
    ∃ r, parseLoop v dir buf (v.E + 1) 0 s = some r := by
  have hmain : (∀ o, ReflTransGen (NextNode v buf) 0 o → NodeInside v dir buf o) →
      ∀ s, ∃ r, parseLoop v dir buf (v.E + 1) 0 s = some r := by
    refine @Walk.Acyclic.ends _ (NextNode v buf)
      (fun n a => (∀ o, ReflTransGen (NextNode v buf) a o → NodeInside v dir buf o) →
        ∀ s, ∃ r, parseLoop v dir buf n a s = some r) v.E UInt32.toNat
      (fun a b => UInt32.toNat_inj.mp) (fun a b hab => hab.1) ?_ 0 fun o ho => (h o ho).2
    intro n o ih hin
    exact parseLoop_next (hin o .refl) fun o' hn => ih o' hn fun c hc => hin c (.head hn hc)
  exact hmain (fun o ho => (h o ho).1) s

/-- the model's bound on the turns takes nothing away -/
theorem parseJffs2data_isSome (v : Jenv) (dir buf : List UInt8) (s : Jst) :
    (parseJffs2data v dir buf s).isSome ↔ ScanEnds v dir buf s := by
  constructor
  · intro h
    obtain ⟨r, hr⟩ := Option.isSome_iff_exists.mp h
    exact ⟨_, r, hr⟩
  · rintro ⟨n, r, h⟩
    exact Option.isSome_iff_exists.mpr ((WayOut.of_ends ⟨s, r, h⟩).parse s)

/-- **Scanning an erase block**, for every content. -/
theorem scanEnds_iff (v : Jenv) (dir buf : List UInt8) (s : Jst) :
    (ScanEnds v dir buf s ↔ WayOut v dir buf) ∧
    ((parseJffs2data v dir buf s).isSome ↔ ScanEnds v dir buf s) := by
  refine ⟨?_, parseJffs2data_isSome v dir buf s⟩
  constructor
  · rintro ⟨n, r, h⟩
    exact .of_ends ⟨s, r, h⟩
  · intro h
    obtain ⟨r, hr⟩ := h.parse s
    exact ⟨_, r, hr⟩

/-- a block that starts with a node of length 0 -/
def zeroNode : List UInt8 :=
  nodeHdr false jffs2NodetypeInode 0 ++ List.replicate 65528 0xff

theorem scanEnds_zero : ¬ ScanEnds ⟨65536, false⟩ [] zeroNode ⟨0, 0, 0, [], 0, []⟩ := by
  have hn : NextNode ⟨65536, false⟩ zeroNode 0 0 := by
    refine ⟨by decide, ?_, 0, ?_, by decide⟩
    · show load16 false zeroNode 0 = _
      unfold zeroNode nodeHdr
      rw [List.append_assoc, load16_put16]
    · show load32 false zeroNode (0 + 2 + 2) = _
      unfold zeroNode nodeHdr
      rw [List.append_assoc, load32_put16, List.append_assoc, load32_put16, load32_head]
  rintro ⟨n, r, h⟩
  exact (WayOut.of_ends ⟨_, r, h⟩ 0 .refl).2 (.single hn)

end Mtd
