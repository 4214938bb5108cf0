import Mathlib.Tactic.TypeStar

/-!
# Code with early exits

A computation on a state that can leave early: the state is what it was by then.  `none` is an
access outside the memory, behind which nothing is known.

* `Exit σ α`      the computations, a monad; `leave`, `guard`, `access`, `update`, `get`;
* `Meets m s K`   `m` goes well from `s`, and ends in a state that `K` describes, whether it leaves or
                  not;
* `Meets.bind`    the rule for two computations in a row;
* `Follows`       a run ends as a computation without a state does.
-/

namespace Exits

variable {σ α β : Type}

def Exit (σ α : Type) : Type := σ → Option (Option α × σ)

def Exit.bind (m : Exit σ α) (f : α → Exit σ β) : Exit σ β := fun s =>
  match m s with
  | none => none
  | some (none, s) => some (none, s)
  | some (some a, s) => f a s

instance : Monad (Exit σ) where
  pure a := fun s => some (some a, s)
  bind := Exit.bind

def leave : Exit σ α := fun s => some (none, s)

def guard (c : Bool) : Exit σ Unit := if c then pure () else leave

def get : Exit σ σ := fun s => some (some s, s)

def update (f : σ → σ) : Exit σ Unit := fun s => some (some (), f s)

/-- an access to a memory -/
def access (a : Option α) : Exit σ α := fun s => a.map fun a => (some a, s)

/-- `m` goes well from `s` and ends as `K` says -/
def Meets (m : Exit σ α) (s : σ) (K : Option α → σ → Prop) : Prop :=
  ∃ r s', m s = some (r, s') ∧ K r s'

variable {m : Exit σ α} {f : α → Exit σ β} {s : σ}

theorem Meets.mono {K K' : Option α → σ → Prop} (h : Meets m s K) (hK : ∀ r s', K r s' → K' r s') :
    Meets m s K' := by
  obtain ⟨r, s', hm, hk⟩ := h
  exact ⟨r, s', hm, hK r s' hk⟩

theorem Meets.pure {K : Option α → σ → Prop} {a : α} (h : K (some a) s) :
    Meets (Pure.pure a) s K := ⟨some a, s, rfl, h⟩

theorem Meets.leave {K : Option α → σ → Prop} (h : K none s) : Meets Exits.leave s K :=
  ⟨none, s, rfl, h⟩

theorem bind_of_some {a : α} {s' : σ} (h : m s = some (some a, s')) : (m >>= f) s = f a s' := by
  show Exit.bind m f s = _
  unfold Exit.bind
  rw [h]

/-- **Two in a row**: where the first leaves, both do. -/
theorem Meets.bind {K : Option α → σ → Prop} {L : Option β → σ → Prop} (h : Meets m s K)
    (hleave : ∀ s', K none s' → L none s') (hnext : ∀ a s', K (some a) s' → Meets (f a) s' L) :
    Meets (m >>= f) s L := by
  obtain ⟨r, s', hm, hk⟩ := h
  cases r with
  | none =>
    refine ⟨none, s', ?_, hleave s' hk⟩
    show Exit.bind m f s = _
    unfold Exit.bind
    rw [hm]
  | some a =>
    obtain ⟨r, s'', hf, hl⟩ := hnext a s' hk
    exact ⟨r, s'', (bind_of_some hm).trans hf, hl⟩

section
variable {L : Option β → σ → Prop}

theorem Meets.guard {c : Bool} {f : Unit → Exit σ β} (hleave : c = false → L none s)
    (hnext : c = true → Meets (f ()) s L) : Meets (Exits.guard c >>= f) s L := by
  cases c with
  | false => exact ⟨none, s, rfl, hleave rfl⟩
  | true => exact hnext rfl

theorem Meets.get {f : σ → Exit σ β} (hnext : Meets (f s) s L) : Meets (Exits.get >>= f) s L :=
  hnext

theorem Meets.update {g : σ → σ} {f : Unit → Exit σ β} (hnext : Meets (f ()) (g s) L) :
    Meets (Exits.update g >>= f) s L := hnext

theorem Meets.done {K : Option Unit → σ → Prop} {g : σ → σ} (h : K (some ()) (g s)) :
    Meets (Exits.update g) s K := ⟨some (), g s, rfl, h⟩

theorem Meets.check {K : Option Unit → σ → Prop} {c : Bool} (hleave : c = false → K none s)
    (hnext : c = true → K (some ()) s) : Meets (Exits.guard c) s K := by
  cases c with
  | false => exact ⟨none, s, rfl, hleave rfl⟩
  | true => exact ⟨some (), s, rfl, hnext rfl⟩

theorem Meets.access {a : α} {o : Option α} (ho : o = some a) (hnext : Meets (f a) s L) :
    Meets (Exits.access o >>= f) s L := by
  subst ho
  exact hnext

end

/-! ## the same without a state -/

section
variable {ε γ : Type} {out ub : ε} {K : β → σ → γ → Prop}

/-- two ends: left early as `out`, gone wrong as `ub`, or with related values -/
inductive Follows (out ub : ε) (K : β → σ → γ → Prop) : Option (Option β × σ) → Except ε γ → Prop
  where
  | wrong : Follows out ub K none (.error ub)
  | left (s : σ) : Follows out ub K (some (none, s)) (.error out)
  | value {b : β} {s : σ} {c : γ} : K b s c → Follows out ub K (some (some b, s)) (.ok c)

/-- where `x` has a value, so does the run -/
theorem Follows.ok {x : Except ε γ} {c : γ} {r : Option (Option β × σ)} (h : Follows out ub K r x)
    (hx : x = .ok c) : ∃ b s', r = some (some b, s') ∧ K b s' c := by
  subst hx
  cases h with
  | value hk => exact ⟨_, _, rfl, hk⟩

theorem Follows.get {f : σ → Exit σ β} {x : Except ε γ} (h : Follows out ub K (f s s) x) :
    Follows out ub K ((Exits.get >>= f) s) x := h

theorem Follows.update {g : σ → σ} {f : Unit → Exit σ β} {x : Except ε γ}
    (h : Follows out ub K (f () (g s)) x) : Follows out ub K ((Exits.update g >>= f) s) x := h

end

theorem bind_assoc {γ : Type} (m : Exit σ α) (f : α → Exit σ β) (g : β → Exit σ γ) :
    m >>= f >>= g = m >>= fun a => f a >>= g := by
  funext s
  show Exit.bind (Exit.bind m f) g s = Exit.bind m (fun a => Exit.bind (f a) g) s
  unfold Exit.bind
  cases m s with
  | none => rfl
  | some r =>
    obtain ⟨r, s'⟩ := r
    cases r <;> rfl

theorem pure_bind (a : α) (f : α → Exit σ β) : Pure.pure a >>= f = f a := rfl

end Exits
