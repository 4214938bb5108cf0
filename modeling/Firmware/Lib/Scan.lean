import Mathlib.Logic.Function.Iterate
import Firmware.Lib.Run

/-!
# Search loops

`for (x = start; inside(x); x = next(x)) if (found(x)) break;` as a machine.  Its result is the
value of `x` behind the loop, with what was found there if the loop was left by `break`.

* `step`              one round;
* `Skips n x`         the first `n` rounds from `x` on find nothing;
* `ends_iff`          the loop ends with what the first round that stops it says.
-/

namespace Scan
open Machine

variable {α β : Type} {inside : α → Bool} {next : α → α} {found : α → Option β}

def step (inside : α → Bool) (next : α → α) (found : α → Option β) (x : α) :
    α ⊕ (α × Option β) :=
  if inside x then
    match found x with
    | some b => .inr (x, some b)
    | none => .inl (next x)
  else .inr (x, none)

theorem step_out {x : α} (h : inside x = false) : step inside next found x = .inr (x, none) := by
  unfold step
  rw [if_neg (by rw [h]; exact Bool.false_ne_true)]

theorem step_hit {x : α} {b : β} (h : inside x = true) (hb : found x = some b) :
    step inside next found x = .inr (x, some b) := by
  unfold step
  rw [if_pos h, hb]

theorem step_skip {x : α} (h : inside x = true) (hb : found x = none) :
    step inside next found x = .inl (next x) := by
  unfold step
  rw [if_pos h, hb]

def Skips (inside : α → Bool) (next : α → α) (found : α → Option β) (n : Nat) (x : α) : Prop :=
  ∀ k, k < n → inside (next^[k] x) = true ∧ found (next^[k] x) = none

/-- how the loop is left at `x` -/
def Stops (inside : α → Bool) (found : α → Option β) (x : α) : Option β → Prop
  | some b => inside x = true ∧ found x = some b
  | none => inside x = false

theorem skips_succ {n : Nat} {x : α} : Skips inside next found (n + 1) x ↔
    (inside x = true ∧ found x = none) ∧ Skips inside next found n (next x) := by
  constructor
  · intro h
    exact ⟨h 0 (by omega), fun k hk => h (k + 1) (by omega)⟩
  · rintro ⟨h0, h⟩ k hk
    cases k with
    | zero => exact h0
    | succ k => exact h k (by omega)

theorem step_of_stops {x : α} {o : Option β} (h : Stops inside found x o) :
    step inside next found x = .inr (x, o) := by
  cases o with
  | none => exact step_out h
  | some b => exact step_hit h.1 h.2

theorem stops_of_step {x y : α} {o : Option β} (h : step inside next found x = .inr (y, o)) :
    y = x ∧ Stops inside found x o := by
  cases hi : inside x with
  | false =>
    rw [step_out hi] at h
    cases h
    exact ⟨rfl, hi⟩
  | true =>
    cases hb : found x with
    | none =>
      rw [step_skip hi hb] at h
      cases h
    | some b =>
      rw [step_hit hi hb] at h
      cases h
      exact ⟨rfl, hi, hb⟩

theorem leads_of_skips {n : Nat} {x : α} (h : Skips inside next found n x) :
    Leads (step inside next found) x (next^[n] x) := by
  induction n generalizing x with
  | zero => exact Leads.refl x
  | succ n ih =>
    obtain ⟨⟨hi, hb⟩, h⟩ := skips_succ.mp h
    exact (ih h).head (step_skip hi hb)

/-- **The result of the loop**, by the round that stops it. -/
theorem ends_iff {x y : α} {o : Option β} : Ends (step inside next found) x (y, o) ↔
    ∃ n, y = next^[n] x ∧ Skips inside next found n x ∧ Stops inside found y o := by
  constructor
  · rintro ⟨m, hm⟩
    induction m generalizing x with
    | zero => exact absurd hm (by simp [run])
    | succ m ih =>
      unfold run at hm
      cases hs : step inside next found x with
      | inr r =>
        rw [hs] at hm
        obtain ⟨rfl, h⟩ := stops_of_step (hs.trans (congrArg Sum.inr (Option.some.inj hm)))
        exact ⟨0, rfl, fun k hk => absurd hk (by omega), h⟩
      | inl x' =>
        rw [hs] at hm
        obtain ⟨n, hy, hn, h⟩ := ih hm
        cases hi : inside x with
        | false =>
          rw [step_out hi] at hs
          cases hs
        | true =>
          cases hb : found x with
          | some b =>
            rw [step_hit hi hb] at hs
            cases hs
          | none =>
            rw [step_skip hi hb] at hs
            cases hs
            exact ⟨n + 1, hy, skips_succ.mpr ⟨⟨hi, hb⟩, hn⟩, h⟩
  · rintro ⟨n, rfl, hn, h⟩
    exact (leads_of_skips hn).ends_iff.mpr (Ends.done (step_of_stops h))

end Scan
