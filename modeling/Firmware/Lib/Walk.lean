import Mathlib.Data.List.Basic
import Mathlib.Data.List.Nodup
import Mathlib.Logic.Relation

/-!
# Walks and cycles

A walk follows a relation `next` from place to place.  `P n a` says that `n` turns are enough to
come to an end from `a`.

* `Acyclic`             nothing on the way leads back to itself;
* `acyclic_of_ends`     a walk that ends meets no cycle;
* `Acyclic.ends`        without cycles, a walk over places with numbers below `N` ends within
                        `N + 1` turns.
-/

set_option linter.unusedVariables false

namespace Walk
open Relation

variable {α : Type} {next : α → α → Prop} {P : Nat → α → Prop}

/-- nothing that can be reached from `a` leads back to itself -/
def Acyclic (next : α → α → Prop) (a : α) : Prop :=
  ∀ b, ReflTransGen next a b → ¬ TransGen next b b

theorem Acyclic.step {a b : α} (h : Acyclic next a) (hb : next a b) : Acyclic next b :=
  fun c hc => h c (.head hb hc)

/-! ## a walk that ends -/

theorem ends_of_reached (h0 : ∀ a, ¬ P 0 a) (hP : ∀ n a b, next a b → P (n + 1) a → P n b)
    {a b : α} (hab : ReflTransGen next a b) : ∀ {n}, P n a → ∃ m, m ≤ n ∧ P m b := by
  induction hab using ReflTransGen.head_induction_on with
  | refl => exact fun h => ⟨_, Nat.le_refl _, h⟩
  | @head a c hac _ ih =>
    intro n h
    cases n with
    | zero => exact absurd h (h0 a)
    | succ n =>
      obtain ⟨m, hm, hb⟩ := ih (hP n a c hac h)
      exact ⟨m, Nat.le_succ_of_le hm, hb⟩

theorem not_cycle (h0 : ∀ a, ¬ P 0 a) (hP : ∀ n a b, next a b → P (n + 1) a → P n b) {a : α}
    (ha : TransGen next a a) : ∀ n, ¬ P n a := by
  intro n
  induction n using Nat.strongRecOn with
  | ind n ih =>
    intro h
    obtain ⟨b, hab, hba⟩ := TransGen.head'_iff.mp ha
    cases n with
    | zero => exact h0 a h
    | succ n =>
      -- once around the cycle costs at least one turn
      obtain ⟨m, hm, h'⟩ := ends_of_reached h0 hP hba (hP n a b hab h)
      exact ih m (Nat.lt_succ_of_le hm) h'

theorem acyclic_of_ends (h0 : ∀ a, ¬ P 0 a) (hP : ∀ n a b, next a b → P (n + 1) a → P n b) {n : Nat}
    {a : α} (h : P n a) : Acyclic next a := by
  intro b hab hb
  obtain ⟨m, -, h'⟩ := ends_of_reached h0 hP hab h
  exact not_cycle h0 hP hb m h'

/-! ## a walk without cycles -/

section
variable {N : Nat} {pos : α → Nat} (hinj : Function.Injective pos)
  (hpos : ∀ a b, next a b → pos a < N) (hP : ∀ n a, (∀ b, next a b → P n b) → P (n + 1) a)
include hinj hpos hP

/-- the places passed so far are all different -/
theorem Acyclic.ends_from : ∀ (n : Nat) (seen : List α) (a : α), Acyclic next a → seen.Nodup →
    (∀ b ∈ seen, pos b < N ∧ TransGen next b a) → N < n + seen.length → P n a := by
  intro n
  induction n with
  | zero =>
    intro seen a _ hn hs hlen
    have hsub : seen.map pos ⊆ List.range N := by
      intro i hi
      obtain ⟨b, hb, rfl⟩ := List.mem_map.mp hi
      exact List.mem_range.mpr (hs b hb).1
    have := List.Nodup.length_le_of_subset (hn.map hinj) hsub
    rw [List.length_map, List.length_range] at this
    omega
  | succ n ih =>
    intro seen a ha hn hs hlen
    refine hP n a fun b hab => ?_
    have hnew : a ∉ seen := fun hmem => ha a .refl (hs a hmem).2
    refine ih (a :: seen) b (ha.step hab) (List.nodup_cons.mpr ⟨hnew, hn⟩) ?_
      (by rw [List.length_cons]; omega)
    intro c hc
    rcases List.mem_cons.mp hc with rfl | hc
    · exact ⟨hpos c b hab, .single hab⟩
    · exact ⟨(hs c hc).1, (hs c hc).2.tail hab⟩

theorem Acyclic.ends {a : α} (ha : Acyclic next a) : P (N + 1) a :=
  Acyclic.ends_from hinj hpos hP (N + 1) [] a ha List.nodup_nil (fun b hb => absurd hb (by simp))
    (by rw [List.length_nil]; omega)

end

end Walk
