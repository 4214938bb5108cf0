import Mathlib.Logic.Relation

/-!
# Runs of a deterministic machine

A machine is a step function into the next state or a result.

* `run step n s`       the result of at most `n` steps, if there is one by then;
* `Leads step s s'`    some number of steps leads from `s` to `s'`;
* `Leads.invariant`    what every step keeps holds in every state reached;
* `reached_inl`        what holds in all states of a run, step by step;
* `Ends step s r`      the run from `s` ends with the result `r`;
* `Ends.invariant`     what every step keeps holds at the end.
-/

namespace Machine

variable {σ ρ : Type} {step : σ → σ ⊕ ρ}

def run (step : σ → σ ⊕ ρ) : Nat → σ → Option ρ
  | 0, _ => none
  | n + 1, s =>
    match step s with
    | .inl s' => run step n s'
    | .inr r => some r

def Ends (step : σ → σ ⊕ ρ) (s : σ) (r : ρ) : Prop := ∃ n, run step n s = some r

def Leads (step : σ → σ ⊕ ρ) : σ → σ → Prop :=
  Relation.ReflTransGen fun s s' => step s = .inl s'

theorem Leads.refl (s : σ) : Leads step s s := Relation.ReflTransGen.refl

theorem Leads.trans {s s' s'' : σ} (h : Leads step s s') (h' : Leads step s' s'') :
    Leads step s s'' := Relation.ReflTransGen.trans h h'

theorem Leads.one {s s' : σ} (h : step s = .inl s') : Leads step s s' :=
  Relation.ReflTransGen.single h

theorem Leads.head {s s' s'' : σ} (h : step s = .inl s') (h' : Leads step s' s'') :
    Leads step s s'' := Relation.ReflTransGen.head h h'

/-- what holds at first and is kept by every step that is taken holds in every state reached -/
theorem Leads.invariant {P : σ → Prop} {s₀ : σ} (h₀ : P s₀)
    (hstep : ∀ s s', Leads step s₀ s → P s → step s = .inl s' → P s') {s : σ} (h : Leads step s₀ s) :
    P s := by
  induction h with
  | refl => exact h₀
  | tail hl hs ih => exact hstep _ _ hl ih hs

theorem Leads.head_cases {s s' : σ} (h : Leads step s s') :
    s' = s ∨ ∃ t, step s = .inl t ∧ Leads step t s' := by
  rcases Relation.ReflTransGen.cases_head h with h | h
  · exact Or.inl h.symm
  · exact Or.inr h

section
variable {P : σ → Prop} {s t : σ} {r : ρ}

/-- a run step by step: what holds in its first state and in every state behind it -/
theorem reached_inl (hs : step s = .inl t) (h₀ : P s) (h : ∀ s', Leads step t s' → P s') :
    ∀ s', Leads step s s' → P s' := by
  intro s' hl
  rcases hl.head_cases with rfl | ⟨t', ht, hl⟩
  · exact h₀
  · obtain rfl : t = t' := Sum.inl.inj (hs.symm.trans ht)
    exact h s' hl

/-- … and in its last state -/
theorem reached_inr (hs : step s = .inr r) (h₀ : P s) : ∀ s', Leads step s s' → P s' := by
  intro s' hl
  rcases hl.head_cases with rfl | ⟨t', ht, -⟩
  · exact h₀
  · exact absurd (hs.symm.trans ht) (by simp)

end

theorem Ends.done {s : σ} {r : ρ} (h : step s = .inr r) : Ends step s r := by
  refine ⟨1, ?_⟩
  unfold run
  rw [h]

theorem ends_step {s s' : σ} {r : ρ} (h : step s = .inl s') : Ends step s r ↔ Ends step s' r := by
  constructor
  · rintro ⟨n, hn⟩
    cases n with
    | zero => exact absurd hn (by simp [run])
    | succ n =>
      unfold run at hn
      rw [h] at hn
      exact ⟨n, hn⟩
  · rintro ⟨n, hn⟩
    refine ⟨n + 1, ?_⟩
    unfold run
    rw [h]
    exact hn

/-- steps do not change the result -/
theorem Leads.ends_iff {s s' : σ} {r : ρ} (h : Leads step s s') :
    Ends step s r ↔ Ends step s' r := by
  induction h with
  | refl => exact Iff.rfl
  | tail _ hs ih => exact ih.trans (ends_step hs)

theorem Ends.unique {s : σ} {r r' : ρ} (h : Ends step s r) (h' : Ends step s r') : r = r' := by
  obtain ⟨n, hn⟩ := h
  induction n generalizing s with
  | zero => exact absurd hn (by simp [run])
  | succ n ih =>
    unfold run at hn
    cases hs : step s with
    | inl s' =>
      rw [hs] at hn
      exact ih ((ends_step hs).mp h') hn
    | inr x =>
      rw [hs] at hn
      obtain ⟨m, hm⟩ := h'
      cases m with
      | zero => exact absurd hm (by simp [run])
      | succ m =>
        unfold run at hm
        rw [hs] at hm
        exact Option.some.inj (hn.symm.trans hm)

/-- a result stays a result with more fuel -/
theorem run_mono {n m : Nat} {s : σ} {r : ρ} (h : run step n s = some r) (hm : n ≤ m) :
    run step m s = some r := by
  induction n generalizing s m with
  | zero => exact absurd h (by simp [run])
  | succ n ih =>
    obtain ⟨m, rfl⟩ : ∃ k, m = k + 1 := ⟨m - 1, by omega⟩
    unfold run at h ⊢
    cases hs : step s with
    | inl s' =>
      rw [hs] at h
      exact ih h (by omega)
    | inr x =>
      rw [hs] at h
      exact h

theorem Ends.eventually {s : σ} {r : ρ} (h : Ends step s r) :
    ∃ n, ∀ m, n ≤ m → run step m s = some r := by
  obtain ⟨n, hn⟩ := h
  exact ⟨n, fun m hm => run_mono hn hm⟩

/-- a run followed by a second one with the same fuel -/
theorem Ends.run_bind_iff {γ : Type} {s : σ} {r : ρ} {rest : ρ → Nat → Option γ} {x : γ}
    (h : Ends step s r)
    (hmono : ∀ n m, rest r n = some x → n ≤ m → rest r m = some x) :
    (∃ n, ((run step n s).bind fun r => rest r n) = some x) ↔ ∃ n, rest r n = some x := by
  constructor
  · rintro ⟨n, hn⟩
    obtain ⟨r', hr', hx⟩ := Option.bind_eq_some_iff.mp hn
    obtain rfl := h.unique ⟨n, hr'⟩
    exact ⟨n, hx⟩
  · rintro ⟨n, hn⟩
    obtain ⟨m, hm⟩ := h
    refine ⟨max n m, ?_⟩
    rw [run_mono hm (Nat.le_max_right n m)]
    exact hmono n _ hn (Nat.le_max_left n m)

/-- **Invariants**: what every step keeps and every result of such a state satisfies. -/
theorem Ends.invariant {P : σ → Prop} {Q : ρ → Prop} (hstep : ∀ s s', P s → step s = .inl s' → P s')
    (hdone : ∀ s r, P s → step s = .inr r → Q r) {s : σ} {r : ρ} (h : Ends step s r) (hs : P s) :
    Q r := by
  obtain ⟨n, hn⟩ := h
  induction n generalizing s with
  | zero => exact absurd hn (by simp [run])
  | succ n ih =>
    unfold run at hn
    cases he : step s with
    | inl s' =>
      rw [he] at hn
      exact ih (hstep s s' hs he) hn
    | inr x =>
      rw [he] at hn
      exact Option.some.inj hn ▸ hdone s x hs he

end Machine
