import Mathlib.Data.List.TakeWhile
import Mathlib.Logic.Function.Basic
import Mathlib.Algebra.Group.Nat.Even

/-!
# A cache of one line

One block of a memory is kept in a line and written back when another block is wanted.  A request
that runs over the end of its block also loads the block behind, and loads it first: what the line
holds for that block by then is not yet in the memory.

* `Put`, `step`, `run`   requests to one cell of the blocks, and what they do;
* `Clear b z s`          the cell of `b` is `z`, in the memory and in the line;
* `Apart b o v s`        it is `o` in the memory and `v` in the line;
* `swaps b ps`           how often requests that stay in `b` load it ahead;
* `apart_run`            each such load exchanges the two;
* `Kept`                 the condition under which the last value of a cell is the one that is left;
* `left_last`            what is left, with or without a last write of the line.
-/

set_option linter.unusedVariables false
set_option linter.unusedSectionVars false

namespace OneLine

variable {β α : Type} [DecidableEq β]

/-- what is stored in the cell of `blk` and in that of the block behind -/
structure Put (β α : Type) where
  blk : β
  nxt : β
  lo : Option α
  hi : Option α
  long : Bool
  ne : nxt ≠ blk

structure State (β α : Type) where
  mem : β → α
  line : α
  cur : Option β

/-- the memory once the line is written back -/
def State.flush (s : State β α) : β → α :=
  match s.cur with
  | none => s.mem
  | some b => Function.update s.mem b s.line

/-- the block in the line, fetched if it is another one -/
def State.fetch (s : State β α) (b : β) : State β α :=
  if s.cur = some b then s else ⟨s.flush, s.flush b, some b⟩

def step (s : State β α) (p : Put β α) : State β α :=
  let ahead := s.mem p.nxt
  let s := s.fetch p.blk
  let line := p.lo.getD s.line
  if p.long then ⟨Function.update s.mem p.blk line, p.hi.getD ahead, some p.nxt⟩
  else ⟨s.mem, line, some p.blk⟩

def run (s : State β α) (ps : List (Put β α)) : State β α := ps.foldl step s

/-- the block in the line behind a request -/
def Put.ends (p : Put β α) : β := if p.long then p.nxt else p.blk

/-- what a request stores in the cell of `b` -/
def Put.stored (p : Put β α) (b : β) : Option α :=
  if p.blk = b then p.lo else if p.long ∧ p.nxt = b then p.hi else none

def Clear (b : β) (z : α) (s : State β α) : Prop := s.mem b = z ∧ (s.cur = some b → s.line = z)

def Apart (b : β) (o v : α) (s : State β α) : Prop := s.mem b = o ∧ s.cur = some b ∧ s.line = v

/-! ## The line and the memory -/

theorem flush_other {s : State β α} {b : β} (h : s.cur ≠ some b) : s.flush b = s.mem b := by
  unfold State.flush
  cases hc : s.cur with
  | none => rfl
  | some c => exact Function.update_of_ne (fun e => h (by rw [hc, e])) _ _

theorem flush_cur {s : State β α} {b : β} (h : s.cur = some b) : s.flush b = s.line := by
  unfold State.flush
  rw [h]
  exact Function.update_self _ _ _

theorem Clear.flush {b : β} {z : α} {s : State β α} (h : Clear b z s) : s.flush b = z := by
  by_cases hc : s.cur = some b
  · rw [flush_cur hc, h.2 hc]
  · rw [flush_other hc, h.1]

theorem Apart.flush {b : β} {o v : α} {s : State β α} (h : Apart b o v s) : s.flush b = v := by
  rw [flush_cur h.2.1, h.2.2]

theorem Apart.clear {b : β} {o : α} {s : State β α} (h : Apart b o o s) : Clear b o s :=
  ⟨h.1, fun _ => h.2.2⟩

theorem fetch_line (s : State β α) (b : β) : (s.fetch b).line = s.flush b := by
  unfold State.fetch
  split
  · next h => rw [flush_cur h]
  · rfl

theorem fetch_mem_self (s : State β α) (b : β) : (s.fetch b).mem b = s.mem b := by
  unfold State.fetch
  split
  · rfl
  · next h => exact flush_other h

theorem fetch_mem_other {s : State β α} {b c : β} (h : b ≠ c) : (s.fetch c).mem b = s.flush b := by
  unfold State.fetch
  split
  · next hc => rw [flush_other (by rw [hc]; exact fun e => h (Option.some.inj e).symm)]
  · rfl

/-! ## One request, seen from one block -/

section
variable {b : β} {s : State β α} {p : Put β α}

/-- the block is wanted, and stays in the line -/
theorem step_here (hb : p.blk = b) (hl : p.long = false) :
    Apart b (s.mem b) (p.lo.getD (s.flush b)) (step s p) := by
  subst hb
  unfold step
  rw [if_neg (by rw [hl]; decide)]
  exact ⟨fetch_mem_self s p.blk, rfl, by rw [fetch_line]⟩

/-- the block is wanted, and the line holds the one behind afterwards -/
theorem step_leave (hb : p.blk = b) (hl : p.long = true) :
    Clear b (p.lo.getD (s.flush b)) (step s p) := by
  subst hb
  unfold step
  rw [if_pos hl]
  refine ⟨?_, fun h => absurd (Option.some.inj h) p.ne⟩
  show Function.update _ _ _ _ = _
  rw [Function.update_self, fetch_line]

/-- the block is loaded ahead: the line has what the memory held -/
theorem step_ahead (hl : p.long = true) (hb : p.nxt = b) :
    Apart b (s.flush b) (p.hi.getD (s.mem b)) (step s p) := by
  subst hb
  unfold step
  rw [if_pos hl]
  refine ⟨?_, rfl, rfl⟩
  show Function.update _ _ _ _ = _
  rw [Function.update_of_ne p.ne, fetch_mem_other p.ne]

/-- another block is wanted -/
theorem step_other (hb : p.blk ≠ b) (he : p.ends ≠ b) : Clear b (s.flush b) (step s p) := by
  unfold step
  cases hl : p.long with
  | false =>
    rw [if_neg (by decide)]
    exact ⟨fetch_mem_other (Ne.symm hb), fun h => absurd (Option.some.inj h) hb⟩
  | true =>
    have hn : p.nxt ≠ b := by
      unfold Put.ends at he
      rwa [if_pos hl] at he
    rw [if_pos rfl]
    refine ⟨?_, fun h => absurd (Option.some.inj h) hn⟩
    show Function.update _ _ _ _ = _
    rw [Function.update_of_ne (Ne.symm hb), fetch_mem_other (Ne.symm hb)]

/-- the four ways to see a request from a block -/
theorem put_cases (p : Put β α) (b : β) :
    (p.blk = b ∧ p.long = false ∧ p.stored b = p.lo ∧ p.ends = b)
    ∨ (p.blk = b ∧ p.long = true ∧ p.stored b = p.lo ∧ p.ends ≠ b)
    ∨ (p.long = true ∧ p.nxt = b ∧ p.stored b = p.hi ∧ p.ends = b)
    ∨ (p.blk ≠ b ∧ p.stored b = none ∧ p.ends ≠ b) := by
  have hne := p.ne
  unfold Put.stored Put.ends
  by_cases hb : p.blk = b
  · cases hl : p.long with
    | false => exact .inl ⟨hb, rfl, by rw [if_pos hb], by rw [if_neg (by decide)]; exact hb⟩
    | true =>
      exact .inr (.inl ⟨hb, rfl, by rw [if_pos hb], by rw [if_pos rfl]; exact fun e => hne (e.trans hb.symm)⟩)
  · by_cases hn : p.long = true ∧ p.nxt = b
    · refine .inr (.inr (.inl ⟨hn.1, hn.2, ?_, by rw [if_pos hn.1]; exact hn.2⟩))
      rw [if_neg hb, if_pos hn]
    · refine .inr (.inr (.inr ⟨hb, by rw [if_neg hb, if_neg hn], ?_⟩))
      cases hl : p.long with
      | false => rw [if_neg (by decide)]; exact hb
      | true => rw [if_pos rfl]; exact fun e => hn ⟨hl, e⟩

/-- a request that stores nothing else there keeps a cell -/
theorem clear_step {z : α} (h : Clear b z s) (hp : ∀ x ∈ p.stored b, x = z) :
    Clear b z (step s p) := by
  have hget : ∀ o : Option α, p.stored b = o → o.getD z = z := by
    rintro (_ | x) ho
    · rfl
    · exact hp x ho
  rcases put_cases p b with ⟨hb, hl, hs, _⟩ | ⟨hb, hl, hs, _⟩ | ⟨hl, hb, hs, _⟩ | ⟨hb, _, he⟩
  · have h1 := step_here (s := s) hb hl
    rw [h.1, h.flush, hget _ hs] at h1
    exact h1.clear
  · have h1 := step_leave (s := s) hb hl
    rwa [h.flush, hget _ hs] at h1
  · have h1 := step_ahead (s := s) hl hb
    rw [h.1, h.flush, hget _ hs] at h1
    exact h1.clear
  · have h1 := step_other (s := s) hb he
    rwa [h.flush] at h1

/-- the block is still in the line behind what is stored -/
theorem store_stay {v : α} (hp : p.stored b = some v) (he : p.ends = b) :
    ∃ o, Apart b o v (step s p) ∧ ∀ z, Clear b z s → o = z := by
  rcases put_cases p b with ⟨hb, hl, hs, _⟩ | ⟨_, _, _, hne⟩ | ⟨hl, hb, hs, _⟩ | ⟨_, _, hne⟩
  · refine ⟨s.mem b, ?_, fun z hz => hz.1⟩
    have h1 := step_here (s := s) hb hl
    rwa [← hs, hp] at h1
  · exact absurd he hne
  · refine ⟨s.flush b, ?_, fun z hz => hz.flush⟩
    have h1 := step_ahead (s := s) hl hb
    rwa [← hs, hp] at h1
  · exact absurd he hne

theorem store_leave {v : α} (hp : p.stored b = some v) (he : p.ends ≠ b) : Clear b v (step s p) := by
  rcases put_cases p b with ⟨_, _, _, h⟩ | ⟨hb, hl, hs, _⟩ | ⟨_, _, _, h⟩ | ⟨_, hs, _⟩
  · exact absurd h he
  · have h1 := step_leave (s := s) hb hl
    rwa [← hs, hp] at h1
  · exact absurd h he
  · rw [hs] at hp
    cases hp

/-- nothing is stored: the two are exchanged if the block is loaded ahead -/
theorem apart_stay {o v : α} (h : Apart b o v s) (hp : p.stored b = none) (he : p.ends = b) :
    if p.long then Apart b v o (step s p) else Apart b o v (step s p) := by
  rcases put_cases p b with ⟨hb, hl, hs, _⟩ | ⟨_, _, _, hne⟩ | ⟨hl, hb, hs, _⟩ | ⟨_, _, hne⟩
  · have h1 := step_here (s := s) hb hl
    rw [if_neg (by rw [hl]; decide)]
    rwa [← hs, hp, h.1, h.flush] at h1
  · exact absurd he hne
  · have h1 := step_ahead (s := s) hl hb
    rw [if_pos hl]
    rwa [← hs, hp, h.1, h.flush] at h1
  · exact absurd he hne

theorem apart_leave {o v : α} (h : Apart b o v s) (hp : p.stored b = none) (he : p.ends ≠ b) :
    Clear b v (step s p) := by
  rcases put_cases p b with ⟨_, _, _, h'⟩ | ⟨hb, hl, hs, _⟩ | ⟨_, _, _, h'⟩ | ⟨hb, _, _⟩
  · exact absurd h' he
  · have h1 := step_leave (s := s) hb hl
    rwa [← hs, hp, h.flush] at h1
  · exact absurd h' he
  · have h1 := step_other (s := s) hb he
    rwa [h.flush] at h1

end

/-! ## Runs -/

/-- the requests that stay in `b` -/
def stays (b : β) (ps : List (Put β α)) : List (Put β α) := ps.takeWhile fun p => p.ends = b

def swaps (b : β) (ps : List (Put β α)) : Nat := (stays b ps).countP fun p => p.long

section
variable {b : β} {s : State β α} {ps : List (Put β α)}

theorem run_append (s : State β α) (ps qs : List (Put β α)) :
    run s (ps ++ qs) = run (run s ps) qs := List.foldl_append

/-- a cell where nothing else is stored -/
theorem clear_run {z : α} (h : Clear b z s) (hp : ∀ p ∈ ps, ∀ x ∈ p.stored b, x = z) :
    Clear b z (run s ps) := by
  induction ps generalizing s with
  | nil => exact h
  | cons p ps ih =>
    exact ih (clear_step h (hp p List.mem_cons_self)) fun q hq => hp q (List.mem_cons_of_mem _ hq)

/-- **The two values of a cell**, when nothing more is stored there. -/
theorem apart_run {o v : α} (h : Apart b o v s) (hp : ∀ p ∈ ps, p.stored b = none) :
    if ∀ p ∈ ps, p.ends = b then
      if Even (swaps b ps) then Apart b o v (run s ps) else Apart b v o (run s ps)
    else Clear b (if Even (swaps b ps) then v else o) (run s ps) := by
  induction ps generalizing s o v with
  | nil =>
    rw [if_pos fun p hp => absurd hp List.not_mem_nil, if_pos (by exact Even.zero)]
    exact h
  | cons p ps ih =>
    have hp0 := hp p List.mem_cons_self
    have hps : ∀ q ∈ ps, q.stored b = none := fun q hq => hp q (List.mem_cons_of_mem _ hq)
    show if _ then if _ then Apart b o v (run (step s p) ps) else Apart b v o (run (step s p) ps)
      else Clear b _ (run (step s p) ps)
    by_cases he : p.ends = b
    · have hst : stays b (p :: ps) = p :: stays b ps :=
        List.takeWhile_cons_of_pos (decide_eq_true he)
      have hall : (∀ q ∈ p :: ps, q.ends = b) ↔ ∀ q ∈ ps, q.ends = b := by
        rw [List.forall_mem_cons]
        exact ⟨fun e => e.2, fun e => ⟨he, e⟩⟩
      have h1 := apart_stay h hp0 he
      cases hl : p.long with
      | true =>
        have hsw : Even (swaps b (p :: ps)) ↔ ¬ Even (swaps b ps) := by
          unfold swaps
          rw [hst, List.countP_cons_of_pos (by simp only [hl]), Nat.even_add_one]
        rw [if_pos hl] at h1
        have h2 := ih h1 hps
        simp only [hall, hsw]
        by_cases hev : Even (swaps b ps)
        · simpa only [hev, if_true, not_true_eq_false, if_false] using h2
        · simpa only [hev, if_false, not_false_eq_true, if_true] using h2
      | false =>
        have hsw : swaps b (p :: ps) = swaps b ps := by
          unfold swaps
          rw [hst, List.countP_cons_of_neg (by simp only [hl]; decide)]
        rw [if_neg (by rw [hl]; decide)] at h1
        have h2 := ih h1 hps
        simp only [hall, hsw]
        exact h2
    · have hst : stays b (p :: ps) = [] := List.takeWhile_cons_of_neg (by rw [decide_eq_true_eq]; exact he)
      have hsw : Even (swaps b (p :: ps)) := by
        unfold swaps
        rw [hst]
        exact Even.zero
      rw [if_neg fun e => he (e p List.mem_cons_self), if_pos hsw]
      exact clear_run (apart_leave h hp0 he) fun q hq x hx => by rw [hps q hq] at hx; cases hx

/-- the memory at the end; the line may not have been written back -/
def State.left (s : State β α) (dropped : Bool) : β → α := if dropped then s.mem else s.flush

/-- the last value of a cell, which `t` stores, is in the memory behind `post` -/
def Kept (dropped : Bool) (b : β) (t : Put β α) (post : List (Put β α)) : Prop :=
  t.ends = b →
    if dropped = true ∧ ∀ p ∈ post, p.ends = b then ¬ Even (swaps b post) else Even (swaps b post)

instance (dropped : Bool) (b : β) (t : Put β α) (post : List (Put β α)) :
    Decidable (Kept dropped b t post) := by
  unfold Kept
  infer_instance

theorem Clear.left {z : α} (h : Clear b z s) (dropped : Bool) : s.left dropped b = z := by
  cases dropped with
  | false => exact h.flush
  | true => exact h.1

/-- every request behind `t` stays in the block -/
theorem kept_staying {t : Put β α} {dropped : Bool} (he : t.ends = b) (hall : ∀ p ∈ ps, p.ends = b) :
    Kept dropped b t ps ↔ (Even (swaps b ps) ↔ dropped = false) := by
  unfold Kept
  cases dropped with
  | false => simp [he]
  | true =>
    rw [if_pos ⟨rfl, hall⟩]
    simp [he]

theorem kept_leaving {t : Put β α} {dropped : Bool} (he : t.ends = b)
    (hall : ¬ ∀ p ∈ ps, p.ends = b) : Kept dropped b t ps ↔ Even (swaps b ps) := by
  unfold Kept
  rw [if_neg fun h => hall h.2]
  exact ⟨fun h => h he, fun h _ => h⟩

theorem kept_gone {t : Put β α} {dropped : Bool} (he : t.ends ≠ b) : Kept dropped b t ps :=
  fun h => absurd h he

/-- **What is left of a cell**: the last value, or the one that was in the memory before. -/
theorem left_last {v : α} {t : Put β α} (dropped : Bool) (ht : t.stored b = some v)
    (hp : ∀ p ∈ ps, p.stored b = none) :
    ∃ o, (∀ z, Clear b z s → o = z)
      ∧ (run s (t :: ps)).left dropped b = if Kept dropped b t ps then v else o := by
  show ∃ o, _ ∧ (run (step s t) ps).left dropped b = _
  by_cases he : t.ends = b
  · obtain ⟨o, ha, ho⟩ := store_stay (s := s) ht he
    refine ⟨o, ho, ?_⟩
    have hr := apart_run ha hp
    by_cases hall : ∀ p ∈ ps, p.ends = b
    · simp only [kept_staying he hall]
      rw [if_pos hall] at hr
      by_cases hev : Even (swaps b ps)
      · rw [if_pos hev] at hr
        cases dropped with
        | false => rw [if_pos (by simp [hev])]; exact hr.flush
        | true => rw [if_neg (by simp [hev])]; exact hr.1
      · rw [if_neg hev] at hr
        cases dropped with
        | false => rw [if_neg (by simp [hev])]; exact hr.flush
        | true => rw [if_pos (by simp [hev])]; exact hr.1
    · rw [if_neg hall] at hr
      simp only [kept_leaving he hall]
      exact hr.left dropped
  · refine ⟨s.flush b, fun z hz => hz.flush, ?_⟩
    rw [if_pos (kept_gone he)]
    refine (clear_run (store_leave ht he) fun q hq x hx => ?_).left dropped
    rw [hp q hq] at hx
    cases hx

end

end OneLine
