import Mathlib.Data.List.Dedup
import Firmware.Mtd.Fis

/-!
# mtd: `fis_validate`

`fis_validate` counts the descriptors that carry one of the names `old`, and compares the number
with that of the names.

* `fisValidate`      the result; mapping the directory succeeds;
* `used`             the descriptors in front of the first free slot;
* `Remappable`       what it should say yes to;
* `length_eq_iff`    when two lists with the same entries have the same length;
* `fisValidate_iff`  when the count gives the right answer.
-/

set_option linter.unusedVariables false

namespace Fis
open Img

/-- the loop over the directory -/
def found (old : List Part) : List Desc → Nat
  | [] => 0
  | d :: ds => if d.unused then 0 else (if isOld old d then 1 else 0) + found old ds

def fisValidate (block : List Desc) (old new : List Part) : Int :=
  if new.dropLast.any fun p => p.size = 0 then -1
  else if found old block = old.length then 1 else -1

/-! ## directories -/

/-- the descriptors in front of the first free slot -/
def used (block : List Desc) : List Desc := block.takeWhile fun d => !d.unused

/-- only the last size is left open, and every old name is in the directory -/
def Remappable (block : List Desc) (old new : List Part) : Prop :=
  (∀ p ∈ new.dropLast, p.size ≠ 0) ∧ ∀ p ∈ old, ∃ d ∈ used block, strncmp 16 d.name p.name = true

/-- the answer is right, and `fis_remap` finds what it replaces when it is yes -/
def Validates (block : List Desc) (old new : List Part) : Prop :=
  (fisValidate block old new = 1 ↔ Remappable block old new) ∧
  (fisValidate block old new = 1 → 1 ≤ old.length → ∃ first last,
    (scan old block 0 ⟨none, none, 0⟩).first = some first ∧
    (scan old block 0 ⟨none, none, 0⟩).last = some last)

/-- a name up to its NUL -/
def str (name : List UInt8) : List UInt8 := name.takeWhile (· ≠ 0)

/-! ## names -/

theorem strncmp_iff : ∀ (n : Nat) {a b : List UInt8}, a.length = n → b.length = n →
    (strncmp n a b = true ↔ str a = str b)
  | 0, a, b, ha, hb => by
    rw [List.eq_nil_of_length_eq_zero ha, List.eq_nil_of_length_eq_zero hb]
    simp [strncmp]
  | n + 1, [], b, ha, hb => absurd ha (by simp)
  | n + 1, x :: a, [], ha, hb => absurd hb (by simp)
  | n + 1, x :: a, y :: b, ha, hb => by
    have ih := strncmp_iff n (Nat.succ.inj ha) (Nat.succ.inj hb)
    unfold str at ih ⊢
    rw [strncmp]
    by_cases hx : x = 0
    · subst hx
      by_cases hy : y = 0
      · simp [hy]
      · simp [hy, Ne.symm hy]
    · by_cases hxy : x = y
      · subst hxy
        simp [hx, ih]
      · by_cases hy : y = 0
        · simp [hx, hy]
        · simp [hxy, hx, hy]

/-! ## counting -/

section
variable {α : Type} [DecidableEq α]

/-- the entries of `xs` that are in `ks` -/
def among (ks xs : List α) : List α := xs.filter (· ∈ ks)

/-- how many entries of a list repeat an earlier one -/
def repeats (l : List α) : Nat := l.length - l.dedup.length

/-- how many different entries of `ks` are not in `xs` -/
def missing (ks xs : List α) : Nat := (ks.dedup.filter fun k => k ∉ xs).length

theorem among_map_length {β : Type} {ks : List α} {l : List β} {f : β → α} {p : β → Bool}
    (h : ∀ b ∈ l, p b = true ↔ f b ∈ ks) : (among ks (l.map f)).length = (l.filter p).length := by
  unfold among
  rw [List.filter_map, List.length_map]
  refine congrArg List.length (List.filter_congr fun b hb => Bool.eq_iff_iff.mpr ?_)
  rw [h b hb]
  exact decide_eq_true_iff

theorem length_eq_repeats (l : List α) : l.length = repeats l + l.dedup.length := by
  have := (List.dedup_sublist l).length_le
  unfold repeats
  omega

theorem missing_eq_zero {ks xs : List α} : missing ks xs = 0 ↔ ∀ k ∈ ks, k ∈ xs := by
  unfold missing
  rw [List.length_eq_zero_iff, List.filter_eq_nil_iff]
  constructor
  · intro h k hk
    have := h k (List.mem_dedup.mpr hk)
    simpa using this
  · intro h k hk
    simpa using h k (List.mem_dedup.mp hk)

/-- as many entries of `xs` are in `ks` as there are in `ks` -/
theorem length_eq_iff (ks xs : List α) : (among ks xs).length = ks.length ↔
    repeats (among ks xs) = repeats ks + missing ks xs := by
  -- without the repeats both sides hold the entries of `ks` that are in `xs`
  have hperm : (among ks xs).dedup.Perm (ks.dedup.filter (· ∈ xs)) := by
    rw [List.perm_ext_iff_of_nodup (List.nodup_dedup _) ((List.nodup_dedup _).filter _)]
    intro a
    unfold among
    simp only [List.mem_dedup, List.mem_filter, decide_eq_true_eq]
    exact And.comm
  have hsplit := List.length_eq_length_filter_add (l := ks.dedup) (· ∈ xs)
  have hmiss : (ks.dedup.filter fun k => !decide (k ∈ xs)).length = missing ks xs := by
    unfold missing
    congr 2
    funext k
    simp
  have h1 := length_eq_repeats (among ks xs)
  have h2 := length_eq_repeats ks
  rw [hperm.length_eq] at h1
  omega

end

/-! ## the answer -/

/-- the names in the directory -/
def names (block : List Desc) : List (List UInt8) := (used block).map fun d => str d.name

/-- the names that are asked for -/
def keys (old : List Part) : List (List UInt8) := old.map fun p => str p.name

/-- the names in the directory that are asked for -/
def matched (block : List Desc) (old : List Part) : List (List UInt8) :=
  among (keys old) (names block)

theorem found_eq (old : List Part) :
    ∀ block : List Desc, found old block = ((used block).filter (isOld old)).length
  | [] => rfl
  | d :: ds => by
    have ih := found_eq old ds
    unfold used at ih ⊢
    rw [found]
    cases hu : d.unused with
    | true => simp [hu]
    | false =>
      cases ho : isOld old d with
      | true => simp [hu, ho, ih, Nat.add_comm]
      | false => simp [hu, ho, ih]

/-- a descriptor of the directory that is asked for stops neither loop before it was seen -/
theorem scan_of_found {old : List Part} : ∀ (block : List Desc) (i : Nat) (s : Scan),
    0 < found old block ∨ (∃ first last, s.first = some first ∧ s.last = some last) →
    ∃ first last, (scan old block i s).first = some first ∧ (scan old block i s).last = some last
  | [], i, s, h => h.resolve_left (by simp [found])
  | d :: ds, i, s, h => by
    rw [scan]
    cases hu : d.unused with
    | true =>
      rw [if_pos rfl]
      exact h.resolve_left (by simp [found, hu])
    | false =>
      rw [if_neg (by decide)]
      refine scan_of_found ds (i + 1) (s.visit old i d) ?_
      unfold Scan.visit
      cases ho : isOld old d with
      | true => exact .inr ⟨_, _, rfl, rfl⟩
      | false =>
        refine h.imp (fun h => ?_) (fun h => h)
        rw [found, hu, ho] at h
        simpa using h

section
variable {block : List Desc} {old new : List Part} (hb : ∀ d ∈ block, d.name.length = 16)
  (ho : ∀ p ∈ old, p.name.length = 16)
include hb ho

theorem strncmp_old {d : Desc} (hd : d ∈ used block) {p : Part} (hp : p ∈ old) :
    strncmp 16 d.name p.name = true ↔ str d.name = str p.name :=
  strncmp_iff 16 (hb d (List.takeWhile_subset _ hd)) (ho p hp)

theorem found_matched : found old block = (matched block old).length := by
  have hold : ∀ d ∈ used block, isOld old d = true ↔ str d.name ∈ keys old := by
    intro d hd
    unfold isOld keys
    rw [List.any_eq_true, List.mem_map]
    constructor
    · rintro ⟨p, hp, h⟩
      exact ⟨p, hp, ((strncmp_old hb ho hd hp).mp h).symm⟩
    · rintro ⟨p, hp, h⟩
      exact ⟨p, hp, (strncmp_old hb ho hd hp).mpr h.symm⟩
  rw [found_eq]
  exact (among_map_length hold).symm

theorem missing_names : missing (keys old) (names block) = 0 ↔
    ∀ p ∈ old, ∃ d ∈ used block, strncmp 16 d.name p.name = true := by
  rw [missing_eq_zero]
  unfold keys names
  simp only [List.mem_map]
  constructor
  · intro h p hp
    obtain ⟨d, hd, e⟩ := h _ ⟨p, hp, rfl⟩
    exact ⟨d, hd, (strncmp_old hb ho hd hp).mpr e⟩
  · rintro h k ⟨p, hp, rfl⟩
    obtain ⟨d, hd, e⟩ := h p hp
    exact ⟨d, hd, (strncmp_old hb ho hd hp).mp e⟩

theorem fisValidate_eq_one : fisValidate block old new = 1 ↔ (∀ p ∈ new.dropLast, p.size ≠ 0) ∧
    repeats (matched block old) = repeats (keys old) + missing (keys old) (names block) := by
  have hcount : (matched block old).length = (keys old).length ↔ repeats (matched block old)
      = repeats (keys old) + missing (keys old) (names block) :=
    length_eq_iff (keys old) (names block)
  have hkeys : (keys old).length = old.length := List.length_map _
  unfold fisValidate
  rw [found_matched hb ho]
  cases ha : new.dropLast.any (fun p => decide (p.size = 0)) with
  | true =>
    obtain ⟨p, hp, h0⟩ := List.any_eq_true.mp ha
    rw [if_pos rfl]
    exact ⟨fun h => absurd h (by decide), fun h => absurd (of_decide_eq_true h0) (h.1 p hp)⟩
  | false =>
    have hs : ∀ p ∈ new.dropLast, p.size ≠ 0 := by
      intro p hp h0
      have := List.any_eq_false.mp ha p hp
      exact this (decide_eq_true h0)
    rw [if_neg (by decide), ← hcount, hkeys]
    by_cases h : (matched block old).length = old.length
    · rw [if_pos h]
      exact ⟨fun _ => ⟨hs, h⟩, fun _ => rfl⟩
    · rw [if_neg h]
      exact ⟨fun h' => absurd h' (by decide), fun h' => absurd h'.2 h⟩

/-- **The answer is right** exactly if, when the sizes are there, the entries that repeat a name
make up neither for names that are repeated in `old` nor for names that are not in the directory. -/
theorem fisValidate_iff : Validates block old new ↔ ((∀ p ∈ new.dropLast, p.size ≠ 0) →
    if missing (keys old) (names block) = 0 then
      repeats (matched block old) = repeats (keys old)
    else
      repeats (matched block old) ≠ repeats (keys old) + missing (keys old) (names block)) := by
  have hone := @fisValidate_eq_one block old new hb ho
  have hmiss := missing_names hb ho
  have hscan : fisValidate block old new = 1 → 1 ≤ old.length → ∃ first last,
      (scan old block 0 ⟨none, none, 0⟩).first = some first ∧
      (scan old block 0 ⟨none, none, 0⟩).last = some last := by
    intro h h1
    refine scan_of_found block 0 _ (.inl ?_)
    have hf : found old block = old.length := by
      unfold fisValidate at h
      by_contra hne
      rw [if_neg hne] at h
      split at h <;> exact absurd h (by decide)
    omega
  unfold Validates Remappable
  rw [and_iff_left hscan, hone, ← hmiss, and_congr_right_iff]
  refine imp_congr_right fun _ => ?_
  by_cases h0 : missing (keys old) (names block) = 0
  · rw [if_pos h0, h0, Nat.add_zero]
    exact ⟨fun h => h.mpr rfl, fun h => ⟨fun _ => rfl, fun _ => h⟩⟩
  · rw [if_neg h0]
    exact ⟨fun h he => h0 (h.mp he), fun h => ⟨fun he => absurd he h, fun h => absurd h h0⟩⟩

end

/-- one name that is in the directory once -/
theorem fisValidate_iff_one : Validates [letter 65 0, letter 66 0x10000, .erased]
    [letterPart 66 0] [letterPart 88 0] :=
  (fisValidate_iff (by decide) (by decide)).mpr fun _ => by decide

/-- one name twice in the directory, in place of two names -/
theorem fisValidate_twice : ¬ Validates [letter 65 0, letter 65 0x10000, .erased]
    [letterPart 65 0, letterPart 66 0] [letterPart 88 0] := by
  intro h
  have hone : fisValidate [letter 65 0, letter 65 0x10000, .erased]
      [letterPart 65 0, letterPart 66 0] [letterPart 88 0] = 1 := by decide
  have hall := (h.1.mp hone).2
  exact absurd hall (by decide)

end Fis
