import Mathlib.Data.List.Basic
import Mathlib.Data.List.TakeWhile

/-!
# Words

The pieces of a list between its separators.

* `words`             the pieces that are not empty;
* `words_dropWhile`   leading separators do not matter;
* `words_append`      the first word of a list.
-/

namespace Words

variable {α : Type} {sep : α → Bool}

def words (sep : α → Bool) (l : List α) : List (List α) :=
  (l.splitOnP sep).filter fun w => !w.isEmpty

theorem words_nil : words sep [] = [] := rfl

theorem words_cons_sep {b : α} (h : sep b = true) (l : List α) : words sep (b :: l) = words sep l := by
  unfold words
  rw [← List.nil_append (b :: l),
    List.splitOnP_append_cons_of_forall_mem (fun x hx => absurd hx List.not_mem_nil) b h]
  rfl

theorem words_dropWhile (l : List α) : words sep (l.dropWhile sep) = words sep l := by
  induction l with
  | nil => rfl
  | cons b l ih =>
    by_cases h : sep b = true
    · rw [List.dropWhile_cons_of_pos h, ih, words_cons_sep h]
    · rw [List.dropWhile_cons_of_neg h]

/-- a word, and a separator or the end behind it -/
theorem words_append {w l : List α} (h0 : w ≠ []) (hw : ∀ b ∈ w, sep b = false)
    (hl : ∀ b ∈ l.head?, sep b = true) : words sep (w ++ l) = w :: words sep l.tail := by
  have hf : ∀ ws : List (List α), (w :: ws).filter (fun w => !w.isEmpty)
      = w :: ws.filter fun w => !w.isEmpty := by
    intro ws
    cases w with
    | nil => exact absurd rfl h0
    | cons c w => rfl
  unfold words
  cases l with
  | nil =>
    rw [List.append_nil, List.splitOnP_eq_singleton hw, hf]
    rfl
  | cons b l =>
    rw [List.splitOnP_append_cons_of_forall_mem hw b (hl b rfl), hf]
    rfl

theorem head?_dropWhile {l : List α} {c : α} (h : c ∈ (l.dropWhile fun b => !sep b).head?) :
    sep c = true := by
  induction l with
  | nil => cases h
  | cons b l ih =>
    by_cases hb : sep b = true
    · rw [List.dropWhile_cons_of_neg (by rw [hb]; decide)] at h
      exact Option.some.inj h ▸ hb
    · rw [List.dropWhile_cons_of_pos (by simpa using hb)] at h
      exact ih h

/-- the list from its first word on -/
theorem words_takeWhile {l : List α} (h : ∃ b ∈ l.head?, sep b = false) :
    words sep l = l.takeWhile (fun b => !sep b) :: words sep (l.dropWhile fun b => !sep b).tail := by
  obtain ⟨b, hb, hs⟩ := h
  obtain ⟨l, rfl⟩ : ∃ r, l = b :: r := ⟨_, List.eq_cons_of_mem_head? hb⟩
  refine (congrArg (words sep) List.takeWhile_append_dropWhile.symm).trans (words_append ?_ ?_ ?_)
  · rw [List.takeWhile_cons_of_pos (by rw [hs]; rfl)]
    exact List.cons_ne_nil _ _
  · intro c hc
    have h := List.mem_takeWhile_imp hc
    rwa [Bool.not_eq_true'] at h
  · intro c hc
    exact head?_dropWhile hc

end Words
