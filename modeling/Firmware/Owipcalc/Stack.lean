import Firmware.Owipcalc.Main

/-!
# owipcalc: the stack

What the operations do to the stack, over whole command lines.

* `Effect`          what an operation may do: `effect` says that it is all they do;
* `Proper`          no address on the stack has an impossible prefix, and there is one;
* `stack_proper`    it stays so, as long as every step is `Orderly`.
-/

set_option linter.unusedVariables false

namespace Owipcalc
open Word CStr Machine

/-! ## what an operation does -/

/-- the operations that calculate -/
def calcNames : List (List UInt8) := [nameAdd, nameSub, nameNext, namePrev]

/-- a push, no change, a change of the prefix on top, or a pop; `p` is the prefix of the argument -/
inductive Effect (name : List UInt8) {f : Family} (a : Cidr f) (p : UInt32) (s s' : State) : Prop
  | push {f' : Family} (c : Cidr f') (stack : s'.stack = ⟨f', c⟩ :: s.stack)
      (len : (f' = f ∧ c.prefixLen = a.prefixLen) ∨ c.prefixLen.toNat ≤ f'.width ∨
        ((name = nameNext ∨ name = namePrev) ∧ f' = f ∧ c.prefixLen = p))
  | keep (named : name ∉ calcNames) (stack : s'.stack = s.stack)
  | change (named : name = namePref)
      (stack : s'.stack = ⟨f, { a with prefixLen := p }⟩ :: s.stack.tail)
  | pop (named : name = namePop ∨ name = namePrint) (stack : s'.stack = s.stack.tail)
      (printed : s'.printed = (s.printed || name == namePrint))

section
variable {big : Bool} {a4 b4 : Cidr .inet} {a6 b6 : Cidr .inet6} {s s' : State} {r : Bool}
  {name : List UInt8} {p : UInt32}

/-- the result is a push -/
theorem pushed {f f' : Family} {a : Cidr f} {c : Cidr f'} {r' : Bool}
    (h : some (r', s.push c) = some (r, s'))
    (len : (f' = f ∧ c.prefixLen = a.prefixLen) ∨ c.prefixLen.toNat ≤ f'.width ∨
      ((name = nameNext ∨ name = namePrev) ∧ f' = f ∧ c.prefixLen = p)) : Effect name a p s s' := by
  obtain ⟨-, rfl⟩ := Prod.mk.inj (Option.some.inj h)
  exact Effect.push c rfl len

/-- the result is an answer -/
theorem answered {f : Family} {a : Cidr f} {t : Bool} (hn : name ∉ calcNames)
    (h : some (s.answer t) = some (r, s')) : Effect name a p s s' := by
  have h := Option.some.inj h
  refine Effect.keep hn ?_
  rw [show s' = (s.answer t).2 by rw [h], State.answer_stack]

/-- an operation that shifts first -/
theorem shifted {n : UInt32} {k : UInt32 → Bool × State}
    (h : ((shl n).bind fun m => some (k m)) = some (r, s')) : ∃ m, some (k m) = some (r, s') := by
  obtain ⟨m, -, h⟩ := Option.bind_eq_some_iff.mp h
  exact ⟨m, h⟩

theorem add4_effect (h : cidrAdd4 big a4 b4 s = some (r, s')) : Effect name a4 p s s' := by
  unfold cidrAdd4 at h
  dsimp only at h
  split at h <;> exact pushed h (Or.inl ⟨rfl, rfl⟩)

theorem sub4_effect (h : cidrSub4 big a4 b4 s = some (r, s')) : Effect name a4 p s s' := by
  unfold cidrSub4 at h
  dsimp only at h
  split at h <;> exact pushed h (Or.inl ⟨rfl, rfl⟩)

theorem add6_effect (h : cidrAdd6 a6 b6 s = some (r, s')) : Effect name a6 p s s' :=
  pushed h (Or.inl ⟨rfl, rfl⟩)

theorem sub6_effect (h : cidrSub6 a6 b6 s = some (r, s')) : Effect name a6 p s s' :=
  pushed h (Or.inl ⟨rfl, rfl⟩)

theorem step4_effect (hn : name = nameNext ∨ name = namePrev)
    (h : cidrNext4 big a4 b4 s = some (r, s') ∨ cidrPrev4 big a4 b4 s = some (r, s')) :
    Effect name a4 b4.prefixLen s s' := by
  rcases h with h | h
  · obtain ⟨m, h⟩ := shifted h
    exact pushed h (Or.inr (Or.inr ⟨hn, rfl, rfl⟩))
  · obtain ⟨m, h⟩ := shifted h
    exact pushed h (Or.inr (Or.inr ⟨hn, rfl, rfl⟩))

theorem step6_effect (hn : name = nameNext ∨ name = namePrev)
    {digit : Nat → UInt8 → Bool → UInt8 × Bool} (h : cidrStep6 digit a6 b6 s = some (r, s')) :
    Effect name a6 b6.prefixLen s s' := by
  unfold cidrStep6 at h
  split at h
  · exact pushed h (Or.inl ⟨rfl, rfl⟩)
  · split at h
    · dsimp only at h
      split at h
      · exact pushed h (Or.inl ⟨rfl, rfl⟩)
      · exact pushed h (Or.inr (Or.inr ⟨hn, rfl, rfl⟩))
    · exact absurd h (by simp)

theorem network6_effect (h : cidrNetwork6 a6 s = some (r, s')) : Effect name a6 p s s' := by
  unfold cidrNetwork6 at h
  dsimp only at h
  split at h
  · exact absurd h (by simp)
  · split at h
    · exact pushed h (Or.inl ⟨rfl, rfl⟩)
    · split at h
      · exact absurd h (by simp)
      · exact pushed h (Or.inl ⟨rfl, rfl⟩)

theorem contains6_effect (h : cidrContains6 a6 b6 s = some (r, s')) : Effect name a6 p s s' := by
  unfold cidrContains6 at h
  dsimp only at h
  split at h
  · exact absurd h (by simp)
  · have h := Option.some.inj h
    refine Effect.push a6 ?_ (Or.inl ⟨rfl, rfl⟩)
    rw [show s' = (r, s').2 from rfl, ← h, State.answer_stack, State.push_stack]

theorem howmany_effect {f : Family} {a b : Cidr f} (h : cidrHowmany a b s = some (r, s')) :
    Effect nameHowmany a p s s' := by
  have hkeep (i : Item) (h : some (true, s.sep.qprintf i) = some (r, s')) :
      Effect nameHowmany a p s s' := by
    obtain ⟨-, rfl⟩ := Prod.mk.inj (Option.some.inj h)
    exact Effect.keep (by decide) (State.sep_stack s)
  unfold cidrHowmany at h
  split at h
  · exact hkeep _ h
  · obtain ⟨m, h⟩ := shifted h
    exact hkeep _ h

theorem prefix_effect {f : Family} {a b : Cidr f} (h : cidrPrefix a b s = some (r, s')) :
    Effect namePref a b.prefixLen s s' := by
  obtain ⟨-, rfl⟩ := Prod.mk.inj (Option.some.inj h)
  exact Effect.change rfl rfl

theorem quiet_effect {f : Family} {a : Cidr f} (h : cidrQuiet a s = some (r, s')) :
    Effect nameQuiet a p s s' := by
  obtain ⟨-, rfl⟩ := Prod.mk.inj (Option.some.inj h)
  exact Effect.keep (by decide) rfl

theorem pop_effect {f : Family} {a : Cidr f} (h : cidrPop a s = some (r, s')) :
    Effect namePop a p s s' := by
  have hn : (namePop == namePrint) = false := by decide
  unfold cidrPop at h
  split at h
  · next hs =>
    obtain ⟨-, rfl⟩ := Prod.mk.inj (Option.some.inj h)
    exact Effect.keep (by decide) rfl
  · next hs =>
    obtain ⟨-, rfl⟩ := Prod.mk.inj (Option.some.inj h)
    exact Effect.pop (Or.inl rfl) (by rw [hs]; rfl) (by rw [hn, Bool.or_false])

theorem print_effect {f : Family} {a : Cidr f} (h : cidrPrint f a s = some (r, s')) :
    Effect namePrint a p s s' := by
  have hn : (namePrint == namePrint) = true := by decide
  have hout (i j : Item) (b : Prop) [Decidable b] :
      (if b then (s.sep.qprintf i).qprintf j else s.sep.qprintf i).stack = s.stack ∧
      (if b then (s.sep.qprintf i).qprintf j else s.sep.qprintf i).printed = true := by
    split <;> exact ⟨State.sep_stack s, rfl⟩
  cases f with
  | inet =>
    obtain ⟨-, rfl⟩ := Prod.mk.inj (Option.some.inj h)
    refine Effect.pop (Or.inr rfl) ?_ ?_
    · exact congrArg List.tail (hout _ _ _).1
    · rw [hn, Bool.or_true]
      exact (hout _ _ _).2
  | inet6 =>
    obtain ⟨-, rfl⟩ := Prod.mk.inj (Option.some.inj h)
    refine Effect.pop (Or.inr rfl) ?_ ?_
    · exact congrArg List.tail (hout _ _ _).1
    · rw [hn, Bool.or_true]
      exact (hout _ _ _).2

end

/-! ## the table -/

/-- the functions of a family have no other effects -/
def Funcs.Sound {f : Family} (name : List UInt8) (F : Funcs f) : Prop :=
  (∀ g, F.a1 = some g → ∀ a s r s' p, g a s = some (r, s') → Effect name a p s s') ∧
    ∀ g, F.a2 = some g → ∀ a b s r s', g a b s = some (r, s') → Effect name a b.prefixLen s s'

section
variable {f : Family} {name : List UInt8}

theorem one_sound {g : Cidr f → State → Result}
    (h : ∀ a s r s' p, g a s = some (r, s') → Effect name a p s s') : (one g).Sound name := by
  refine ⟨fun g' hg => ?_, fun g' hg => absurd hg (by simp [one])⟩
  obtain rfl := Option.some.inj hg
  exact h

theorem two_sound {g : Cidr f → Cidr f → State → Result}
    (h : ∀ a b s r s', g a b s = some (r, s') → Effect name a b.prefixLen s s') : (two g).Sound name := by
  refine ⟨fun g' hg => absurd hg (by simp [two]), fun g' hg => ?_⟩
  obtain rfl := Option.some.inj hg
  exact h

theorem unsupported_sound : (unsupported : Funcs f).Sound name :=
  ⟨fun g hg => absurd hg (by simp [unsupported]), fun g hg => absurd hg (by simp [unsupported])⟩

theorem both_sound {F4 : Funcs .inet} {F6 : Funcs .inet6} (h4 : F4.Sound name) (h6 : F6.Sound name) :
    ∀ f, (Op.funcs ⟨name, F4, F6⟩ f).Sound name
  | .inet => h4
  | .inet6 => h6

/-- **The table**: every operation has an `Effect`. -/
theorem ops_sound (big : Bool) : ∀ op ∈ ops big, ∀ f, (op.funcs f).Sound op.name := by
  have next4 {s r s'} (a b : Cidr .inet) (h : cidrNext4 big a b s = some (r, s')) :
      Effect nameNext a b.prefixLen s s' := step4_effect (Or.inl rfl) (Or.inl h)
  have prev4 {s r s'} (a b : Cidr .inet) (h : cidrPrev4 big a b s = some (r, s')) :
      Effect namePrev a b.prefixLen s s' := step4_effect (Or.inr rfl) (Or.inr h)
  have len32 {name : List UInt8} {a : Cidr .inet} {p x : UInt32} :
      (Family.inet = .inet ∧ (⟨32, x⟩ : Cidr .inet).prefixLen = a.prefixLen) ∨
        (⟨32, x⟩ : Cidr .inet).prefixLen.toNat ≤ Family.inet.width ∨
        ((name = nameNext ∨ name = namePrev) ∧ Family.inet = .inet ∧ (⟨32, x⟩ : Cidr .inet).prefixLen = p) :=
    Or.inr (Or.inl (Nat.le_refl 32))
  have len48 : (48 : UInt32).toNat ≤ 128 := by decide
  unfold ops
  simp only [List.forall_mem_cons]
  refine ⟨?add, ?sub, ?next, ?prev, ?network, ?broadcast, ?pref, ?netmask, ?sixto4, ?howmany, ?contains,
    ?priv, ?linklocal, ?ula, ?quiet, ?pop, ?print, List.forall_mem_nil _⟩
  case add =>
    exact both_sound (two_sound fun _ _ _ _ _ h => add4_effect h) (two_sound fun _ _ _ _ _ h => add6_effect h)
  case sub =>
    exact both_sound (two_sound fun _ _ _ _ _ h => sub4_effect h) (two_sound fun _ _ _ _ _ h => sub6_effect h)
  case next =>
    exact both_sound (two_sound fun a b _ _ _ h => next4 a b h)
      (two_sound fun _ _ _ _ _ h => step6_effect (Or.inl rfl) h)
  case prev =>
    exact both_sound (two_sound fun a b _ _ _ h => prev4 a b h)
      (two_sound fun _ _ _ _ _ h => step6_effect (Or.inr rfl) h)
  case network =>
    refine both_sound (one_sound fun _ _ _ _ _ h => ?_) (one_sound fun _ _ _ _ _ h => network6_effect h)
    obtain ⟨m, h⟩ := shifted h
    exact pushed h len32
  case broadcast =>
    refine both_sound (one_sound fun _ _ _ _ _ h => ?_) unsupported_sound
    obtain ⟨m, h⟩ := shifted h
    exact pushed h len32
  case pref =>
    exact both_sound (two_sound fun _ _ _ _ _ h => prefix_effect h)
      (two_sound fun _ _ _ _ _ h => prefix_effect h)
  case netmask =>
    refine both_sound (one_sound fun _ _ _ _ _ h => ?_) unsupported_sound
    obtain ⟨m, h⟩ := shifted h
    exact pushed h len32
  case sixto4 =>
    exact both_sound (one_sound fun _ _ _ _ _ h => pushed h (Or.inr (Or.inl len48))) unsupported_sound
  case howmany =>
    exact both_sound (two_sound fun _ _ _ _ _ h => howmany_effect h)
      (two_sound fun _ _ _ _ _ h => howmany_effect h)
  case contains =>
    refine both_sound (two_sound fun _ _ _ _ _ h => ?_) (two_sound fun _ _ _ _ _ h => contains6_effect h)
    obtain ⟨m, h⟩ := shifted h
    exact answered (by decide) h
  case priv => exact both_sound (one_sound fun _ _ _ _ _ h => answered (by decide) h) unsupported_sound
  case linklocal =>
    exact both_sound (one_sound fun _ _ _ _ _ h => answered (by decide) h) (one_sound fun _ _ _ _ _ h => answered (by decide) h)
  case ula => exact both_sound unsupported_sound (one_sound fun _ _ _ _ _ h => answered (by decide) h)
  case quiet =>
    exact both_sound (one_sound fun _ _ _ _ _ h => quiet_effect h) (one_sound fun _ _ _ _ _ h => quiet_effect h)
  case pop =>
    exact both_sound (one_sound fun _ _ _ _ _ h => pop_effect h) (one_sound fun _ _ _ _ _ h => pop_effect h)
  case print =>
    exact both_sound (one_sound fun _ _ _ _ _ h => print_effect (f := .inet) h)
      (one_sound fun _ _ _ _ _ h => print_effect (f := .inet6) h)

end

/-! ## one turn -/

/-- the operation that a turn runs: on the address `a`, with the argument, before the arguments
`args`, with a result -/
inductive Runs (h : Host) (c : Config) : (op : Op) → (f : Family) → Cidr f → Option (Cidr f) →
    List CStr → Result → Prop
  | unary {arg1 : CStr} {args : List CStr} {op : Op} {f : Family} {a : Cidr f} {rest : List (Sigma Cidr)}
      {g : Cidr f → State → Result} (hargs : c.args = arg1 :: args)
      (hop : (ops h.big).find? (fun op => op.name == arg1.bytes) = some op) (hb : op.binary = false)
      (hs : c.state.stack = ⟨f, a⟩ :: rest) (hg : (op.funcs f).a1 = some g) :
      Runs h c op f a none args (g a c.state)
  | binary {arg1 arg2 : CStr} {args : List CStr} {op : Op} {f : Family} {a b : Cidr f}
      {rest : List (Sigma Cidr)} {g : Cidr f → Cidr f → State → Result}
      (hargs : c.args = arg1 :: arg2 :: args)
      (hop : (ops h.big).find? (fun op => op.name == arg1.bytes) = some op) (hb : op.binary = true)
      (hs : c.state.stack = ⟨f, a⟩ :: rest) (hp : cidrParse h arg2 f = .ok b)
      (hg : (op.funcs f).a2 = some g) : Runs h c op f a (some b) args (g a b c.state)

variable {h : Host} {c c' : Config}

theorem Runs.runop {op : Op} {f : Family} {a : Cidr f} {b : Option (Cidr f)} {args : List CStr} {r : Result}
    (hr : Runs h c op f a b args r) : runop h c = returned args r := by
  cases hr with
  | unary hargs hop hb hs hg =>
    unfold Owipcalc.runop
    simp only [hargs, hop, hb, hs, hg, Bool.false_eq_true, if_false]
  | binary hargs hop hb hs hp hg =>
    unfold Owipcalc.runop
    simp only [hargs, hop, hb, hs, hp, hg, if_true]

section
variable {arg1 arg2 : CStr} {args : List CStr} {op : Op} {f : Family} {a b : Cidr f} {rest : List (Sigma Cidr)}

theorem runop_missing (hargs : c.args = [arg1])
    (hop : (ops h.big).find? (fun op => op.name == arg1.bytes) = some op) (hb : op.binary = true) :
    runop h c = .stop { c with status := 2 } := by
  unfold runop
  simp only [hargs, hop, hb, if_true]

theorem runop_null (hargs : c.args = arg1 :: arg2 :: args)
    (hop : (ops h.big).find? (fun op => op.name == arg1.bytes) = some op) (hb : op.binary = true)
    (hs : c.state.stack = ⟨f, a⟩ :: rest) (hp : cidrParse h arg2 f = .null) :
    runop h c = .stop { c with status := 3 } := by
  unfold runop
  simp only [hargs, hop, hb, hs, hp, if_true]

theorem runop_exit (hargs : c.args = arg1 :: arg2 :: args)
    (hop : (ops h.big).find? (fun op => op.name == arg1.bytes) = some op) (hb : op.binary = true)
    (hs : c.state.stack = ⟨f, a⟩ :: rest) (hp : cidrParse h arg2 f = .exit) :
    runop h c = .done (.exit 4 c.state) := by
  unfold runop
  simp only [hargs, hop, hb, hs, hp, if_true]

theorem runop_unsupported1 (hargs : c.args = arg1 :: args)
    (hop : (ops h.big).find? (fun op => op.name == arg1.bytes) = some op) (hb : op.binary = false)
    (hs : c.state.stack = ⟨f, a⟩ :: rest) (hg : (op.funcs f).a1 = none) :
    runop h c = .stop { c with args := args, status := 5 } := by
  unfold runop
  simp only [hargs, hop, hb, hs, hg, Bool.false_eq_true, if_false]

theorem runop_unsupported2 (hargs : c.args = arg1 :: arg2 :: args)
    (hop : (ops h.big).find? (fun op => op.name == arg1.bytes) = some op) (hb : op.binary = true)
    (hs : c.state.stack = ⟨f, a⟩ :: rest) (hp : cidrParse h arg2 f = .ok b) (hg : (op.funcs f).a2 = none) :
    runop h c = .stop { c with args := args, status := 5 } := by
  unfold runop
  simp only [hargs, hop, hb, hs, hp, hg, if_true]

end

/-- **A turn** runs an operation, stops, ends the program, or reads through the empty stack. -/
theorem runop_cases (h : Host) (c : Config) :
    (∃ op f a b args r, Runs h c op f a b args r) ∨
    (∃ c', runop h c = .stop c' ∧ c'.state = c.state ∧ (c'.args = [] → c.args = [] ∨ 2 ≤ c'.status)) ∨
    runop h c = .done (.exit 4 c.state) ∨
    (runop h c = .done .segv ∧ c.args ≠ [] ∧ c.state.stack = []) := by
  cases hargs : c.args with
  | nil =>
    refine Or.inr (Or.inl ⟨c, ?_, rfl, fun _ => Or.inl rfl⟩)
    unfold runop
    simp only [hargs]
  | cons arg1 args =>
    cases hop : (ops h.big).find? (fun op => op.name == arg1.bytes) with
    | none =>
      refine Or.inr (Or.inl ⟨c, ?_, rfl, fun h => absurd h (by rw [hargs]; exact List.cons_ne_nil _ _)⟩)
      unfold runop
      simp only [hargs, hop]
    | some op =>
      cases hb : op.binary with
      | false =>
        cases hs : c.state.stack with
        | nil =>
          refine Or.inr (Or.inr (Or.inr ⟨?_, List.cons_ne_nil _ _, rfl⟩))
          unfold runop
          simp only [hargs, hop, hb, hs, Bool.false_eq_true, if_false]
        | cons top rest =>
          obtain ⟨f, a⟩ := top
          cases hg : (op.funcs f).a1 with
          | none =>
            exact Or.inr (Or.inl ⟨_, runop_unsupported1 hargs hop hb hs hg, rfl,
              fun _ => Or.inr (by decide : 2 ≤ 5)⟩)
          | some g => exact Or.inl ⟨_, _, _, _, _, _, Runs.unary hargs hop hb hs hg⟩
      | true =>
        cases args with
        | nil =>
          exact Or.inr (Or.inl ⟨_, runop_missing hargs hop hb, rfl,
            fun h => absurd h (by rw [hargs]; exact List.cons_ne_nil _ _)⟩)
        | cons arg2 args =>
          cases hs : c.state.stack with
          | nil =>
            refine Or.inr (Or.inr (Or.inr ⟨?_, List.cons_ne_nil _ _, rfl⟩))
            unfold runop
            simp only [hargs, hop, hb, hs, if_true]
          | cons top rest =>
            obtain ⟨f, a⟩ := top
            cases hp : cidrParse h arg2 f with
            | exit => exact Or.inr (Or.inr (Or.inl (runop_exit hargs hop hb hs hp)))
            | null =>
              exact Or.inr (Or.inl ⟨_, runop_null hargs hop hb hs hp, rfl,
                fun h => absurd h (by rw [hargs]; exact List.cons_ne_nil _ _)⟩)
            | ok b =>
              cases hg : (op.funcs f).a2 with
              | none =>
                exact Or.inr (Or.inl ⟨_, runop_unsupported2 hargs hop hb hs hp hg, rfl,
                  fun _ => Or.inr (by decide : 2 ≤ 5)⟩)
              | some g => exact Or.inl ⟨_, _, _, _, _, _, Runs.binary hargs hop hb hs hp hg⟩

/-- the prefix of the argument -/
def argPrefix {f : Family} : Option (Cidr f) → UInt32
  | none => 0
  | some b => b.prefixLen

theorem Runs.effect {op : Op} {f : Family} {a : Cidr f} {b : Option (Cidr f)} {args : List CStr} {t : Bool}
    {s' : State} (hr : Runs h c op f a b args (some (t, s'))) :
    Effect op.name a (argPrefix b) c.state s' ∧ ∃ rest, c.state.stack = ⟨f, a⟩ :: rest := by
  generalize hres : some (t, s') = res at hr
  cases hr with
  | unary hargs hop hb hs hg =>
    exact ⟨(ops_sound h.big op (List.mem_of_find?_eq_some hop) f).1 _ hg _ _ _ _ _ hres.symm, _, hs⟩
  | binary hargs hop hb hs hp hg =>
    exact ⟨(ops_sound h.big op (List.mem_of_find?_eq_some hop) f).2 _ hg _ _ _ _ _ hres.symm, _, hs⟩

theorem Runs.step {op : Op} {f : Family} {a : Cidr f} {b : Option (Cidr f)} {args : List CStr} {r : Result}
    (hr : Runs h c op f a b args r) :
    (∃ t s', r = some (t, s') ∧ Owipcalc.step h c = .inl ⟨args, if t then 0 else 1, s'⟩) ∨
      (r = none ∧ Owipcalc.step h c = .inr .undefined) := by
  unfold Owipcalc.step
  rw [hr.runop]
  cases r with
  | none => exact Or.inr ⟨rfl, rfl⟩
  | some r =>
    obtain ⟨t, s'⟩ := r
    exact Or.inl ⟨t, s', rfl, rfl⟩

/-- the turns that go on run an operation -/
theorem step_inl (hs : step h c = .inl c') :
    ∃ op f a b t, Runs h c op f a b c'.args (some (t, c'.state)) := by
  rcases runop_cases h c with ⟨op, f, a, b, args, r, hr⟩ | ⟨d, hd, -⟩ | hd | ⟨hd, -⟩
  · rcases hr.step with ⟨t, s', rfl, h'⟩ | ⟨rfl, h'⟩
    · rw [h'] at hs
      obtain rfl := Sum.inl.inj hs
      exact ⟨op, f, a, b, t, hr⟩
    · rw [h'] at hs
      exact absurd hs (by simp)
  · unfold step at hs
    rw [hd] at hs
    exact absurd hs (by simp)
  · unfold step at hs
    rw [hd] at hs
    exact absurd hs (by simp)
  · unfold step at hs
    rw [hd] at hs
    exact absurd hs (by simp)

/-! ## the base address -/

theorem ones_le : ∀ k ≤ 32, ∀ mask : UInt32, (ones k mask).toNat ≤ k
  | 0, _, mask => Nat.le_refl 0
  | k + 1, hk, mask => by
    have ih := ones_le k (by omega) (mask >>> (1 : UInt32))
    have hb : (mask &&& (1 : UInt32)).toNat ≤ 1 := by
      rw [UInt32.toNat_and]
      exact Nat.and_le_right
    show ((mask &&& (1 : UInt32)) + ones k (mask >>> (1 : UInt32))).toNat ≤ k + 1
    rw [UInt32.toNat_add]
    omega

theorem parsePrefix_le {width p : UInt32} {l : List UInt8} (hp : parsePrefix h width l = some p) :
    p.toNat ≤ width.toNat := by
  unfold parsePrefix at hp
  dsimp only at hp
  split at hp
  · exact absurd hp (by simp)
  · next hn =>
    obtain rfl := Option.some.inj hp
    exact UInt32.le_iff_toNat_le.mp (UInt32.not_lt.mp (not_or.mp (not_or.mp hn).2).2)

theorem cidrParse4_le {s : CStr} {a : Cidr .inet} (ha : cidrParse4 h s = some a) :
    a.prefixLen.toNat ≤ 32 := by
  unfold cidrParse4 at ha
  split at ha
  · exact absurd ha (by simp)
  · dsimp only at ha
    obtain ⟨len, hlen, ha⟩ := Option.bind_eq_some_iff.mp ha
    have hle : len.toNat ≤ 32 := by
      split at hlen
      · split at hlen
        · obtain ⟨mask, -, rfl⟩ := Option.map_eq_some_iff.mp hlen
          exact ones_le 32 (Nat.le_refl _) _
        · exact parsePrefix_le hlen
      · obtain rfl := Option.some.inj hlen
        exact Nat.le_refl _
    split at ha
    · obtain rfl := Option.some.inj ha
      exact hle
    · obtain ⟨x, -, rfl⟩ := Option.map_eq_some_iff.mp ha
      exact hle

theorem cidrParse6_le {s : CStr} {a : Cidr .inet6} (ha : cidrParse6 h s = some a) :
    a.prefixLen.toNat ≤ 128 := by
  unfold cidrParse6 at ha
  split at ha
  · exact absurd ha (by simp)
  · dsimp only at ha
    obtain ⟨len, hlen, ha⟩ := Option.bind_eq_some_iff.mp ha
    have hle : len.toNat ≤ 128 := by
      split at hlen
      · exact parsePrefix_le hlen
      · obtain rfl := Option.some.inj hlen
        exact Nat.le_refl _
    split at ha
    · obtain rfl := Option.some.inj ha
      exact hle
    · obtain ⟨x, -, rfl⟩ := Option.map_eq_some_iff.mp ha
      exact hle

theorem parseAddr_le {s : CStr} {a : Sigma Cidr} (ha : parseAddr h s = some a) :
    a.2.prefixLen.toNat ≤ a.1.width := by
  unfold parseAddr at ha
  split at ha
  · obtain ⟨b, hb, rfl⟩ := Option.map_eq_some_iff.mp ha
    exact cidrParse6_le hb
  · obtain ⟨b, hb, rfl⟩ := Option.map_eq_some_iff.mp ha
    exact cidrParse4_le hb

/-! ## the invariant -/

/-- no prefix on the stack is longer than its address -/
def Fitting (s : State) : Prop := ∀ e ∈ s.stack, e.2.prefixLen.toNat ≤ e.1.width

/-- … and the stack is not empty -/
def Proper (s : State) : Prop := Fitting s ∧ s.stack ≠ []

/-- the operation that the turn runs sets no impossible prefix, and does not pop the last address -/
def Orderly (h : Host) (c : Config) : Prop :=
  ∀ op f a b args r, Runs h c op f a b args r →
    (op.name = namePref ∨ op.name = nameNext ∨ op.name = namePrev → (argPrefix b).toNat ≤ f.width) ∧
    (op.name = namePop ∨ op.name = namePrint → 2 ≤ c.state.stack.length)

/-- … or it pops the last address as the last operation, with something printed -/
def Decent (h : Host) (c : Config) : Prop :=
  ∀ op f a b args r, Runs h c op f a b args r →
    (op.name = namePref ∨ op.name = nameNext ∨ op.name = namePrev → (argPrefix b).toNat ≤ f.width) ∧
    (op.name = namePop ∨ op.name = namePrint → 2 ≤ c.state.stack.length ∨
      args = [] ∧ (op.name = namePrint ∨ c.state.printed = true))

theorem Fitting.effect {name : List UInt8} {f : Family} {a : Cidr f} {p : UInt32} {s s' : State}
    {rest : List (Sigma Cidr)} (hf : Fitting s) (he : Effect name a p s s') (hs : s.stack = ⟨f, a⟩ :: rest)
    (hp : name = namePref ∨ name = nameNext ∨ name = namePrev → p.toNat ≤ f.width) : Fitting s' := by
  have ha : a.prefixLen.toNat ≤ f.width := hf ⟨f, a⟩ (by rw [hs]; exact List.mem_cons_self)
  cases he with
  | push d stack len =>
    intro e he
    rw [stack] at he
    rcases List.mem_cons.mp he with rfl | he
    · rcases len with ⟨rfl, hl⟩ | hl | ⟨hn, rfl, hl⟩
      · show d.prefixLen.toNat ≤ _
        rw [hl]
        exact ha
      · exact hl
      · show d.prefixLen.toNat ≤ _
        rw [hl]
        exact hp (Or.inr hn)
    · exact hf e he
  | keep hn stack =>
    intro e he
    rw [stack] at he
    exact hf e he
  | change hn stack =>
    intro e he
    rw [stack] at he
    rcases List.mem_cons.mp he with rfl | he
    · exact hp (Or.inl hn)
    · exact hf e (List.mem_of_mem_tail he)
  | pop hn stack printed =>
    intro e he
    rw [stack] at he
    exact hf e (List.mem_of_mem_tail he)

/-- only a pop makes the stack shorter -/
theorem Effect.nonempty {name : List UInt8} {f : Family} {a : Cidr f} {p : UInt32} {s s' : State}
    {rest : List (Sigma Cidr)} (he : Effect name a p s s') (hs : s.stack = ⟨f, a⟩ :: rest) :
    s'.stack ≠ [] ∨ ((name = namePop ∨ name = namePrint) ∧ s'.stack = s.stack.tail ∧
      s'.printed = (s.printed || name == namePrint)) := by
  cases he with
  | push d stack len =>
    rw [stack]
    exact Or.inl (List.cons_ne_nil _ _)
  | keep hn stack =>
    rw [stack, hs]
    exact Or.inl (List.cons_ne_nil _ _)
  | change hn stack =>
    rw [stack]
    exact Or.inl (List.cons_ne_nil _ _)
  | pop hn stack printed => exact Or.inr ⟨hn, stack, printed⟩

theorem finish_segv (hf : finish c = .segv) :
    c.args = [] ∧ c.state.printed = false ∧ c.state.stack = [] := by
  unfold finish at hf
  split at hf
  · exact absurd hf (by simp)
  · next hargs =>
    split at hf
    · next hp =>
      split at hf
      · next hs =>
        rw [Bool.and_eq_true, Bool.not_eq_true'] at hp
        exact ⟨not_not.mp hargs, hp.1, hs⟩
      · split at hf <;> exact absurd hf (by simp)
    · exact absurd hf (by simp)

/-- where a turn reads through the empty stack -/
theorem step_segv (hs : step h c = .inr .segv) :
    c.state.stack = [] ∧ (c.args ≠ [] ∨ c.state.printed = false) := by
  rcases runop_cases h c with ⟨op, f, a, b, args, r, hr⟩ | ⟨d, hd, hst, -⟩ | hd | ⟨hd, hargs, hempty⟩
  · rcases hr.step with ⟨t, s', -, h'⟩ | ⟨-, h'⟩
    · rw [h'] at hs
      exact absurd hs (by simp)
    · rw [h'] at hs
      exact absurd hs (by simp)
  · unfold step at hs
    rw [hd] at hs
    obtain ⟨-, hp, hempty⟩ := finish_segv (Sum.inr.inj hs)
    rw [hst] at hp hempty
    exact ⟨hempty, Or.inr hp⟩
  · unfold step at hs
    rw [hd] at hs
    exact absurd hs (by simp)
  · exact ⟨hempty, Or.inl hargs⟩

theorem proper_step (hp : Proper c.state) (ho : Orderly h c) (hs : step h c = .inl c') :
    Proper c'.state := by
  obtain ⟨op, f, a, b, t, hr⟩ := step_inl hs
  obtain ⟨he, rest, hst⟩ := hr.effect
  obtain ⟨hpre, hpop⟩ := ho op f a b _ _ hr
  refine ⟨hp.1.effect he hst hpre, ?_⟩
  rcases he.nonempty hst with hne | ⟨hn, htail, -⟩
  · exact hne
  · have h2 := hpop hn
    rw [htail]
    intro h0
    have hl := congrArg List.length h0
    rw [List.length_tail, List.length_nil] at hl
    omega

theorem decent_step (hf : Fitting c.state) (ho : Decent h c)
    (hs : step h c = .inl c') :
    Fitting c'.state ∧ (c'.state.stack = [] → c'.args = [] ∧ c'.state.printed = true) := by
  obtain ⟨op, f, a, b, t, hr⟩ := step_inl hs
  obtain ⟨he, rest, hst⟩ := hr.effect
  obtain ⟨hpre, hpop⟩ := ho op f a b _ _ hr
  refine ⟨hf.effect he hst hpre, fun h0 => ?_⟩
  rcases he.nonempty hst with hne | ⟨hn, htail, hprinted⟩
  · exact absurd h0 hne
  · rcases hpop hn with h2 | ⟨hargs, hout⟩
    · have hl := congrArg List.length h0
      rw [htail, List.length_tail, List.length_nil] at hl
      omega
    · refine ⟨hargs, ?_⟩
      rcases hout with hname | hout
      · rw [hprinted, hname]
        exact Bool.or_true _
      · rw [hprinted, hout]
        rfl

theorem start_proper {base : CStr} {args : List CStr} {c₀ : Config} (h₀ : start h base args = some c₀) :
    Proper c₀.state := by
  unfold start at h₀
  split at h₀
  · exact absurd h₀ (by simp)
  · obtain ⟨a, ha, rfl⟩ := Option.map_eq_some_iff.mp h₀
    refine ⟨fun e he => ?_, List.cons_ne_nil _ _⟩
    obtain rfl := List.mem_singleton.mp he
    exact parseAddr_le ha

/-- its name, the address on top of the stack, and its argument -/
def running (h : Host) (c : Config) : Option (List UInt8 × (f : Family) × Cidr f × Option (Cidr f)) :=
  match c.args, c.state.stack with
  | arg1 :: args, ⟨f, a⟩ :: _ =>
    ((ops h.big).find? fun op => op.name == arg1.bytes).bind fun op =>
      if op.binary then
        match args with
        | [] => none
        | arg2 :: _ =>
          match cidrParse h arg2 f with
          | .ok b => some (op.name, ⟨f, a, some b⟩)
          | _ => none
      else some (op.name, ⟨f, a, none⟩)
  | _, _ => none

theorem Runs.running {op : Op} {f : Family} {a : Cidr f} {b : Option (Cidr f)} {args : List CStr} {r : Result}
    (hr : Runs h c op f a b args r) : Owipcalc.running h c = some (op.name, ⟨f, a, b⟩) := by
  unfold Owipcalc.running
  cases hr with
  | unary hargs hop hb hs hg =>
    simp only [hargs, hs, hop, hb, Option.bind_some, Bool.false_eq_true, if_false]
  | binary hargs hop hb hs hp hg =>
    simp only [hargs, hs, hop, hb, hp, Option.bind_some, if_true]

/-- a test for `Orderly` -/
theorem orderly_of (ho : ∀ x ∈ running h c,
    (x.1 = namePref ∨ x.1 = nameNext ∨ x.1 = namePrev → (argPrefix x.2.2.2).toNat ≤ x.2.1.width) ∧
    (x.1 = namePop ∨ x.1 = namePrint → 2 ≤ c.state.stack.length)) : Orderly h c := by
  intro op f a b args r hr
  exact ho _ hr.running

/-! ## command lines -/

def base1234 : CStr := lit ['1', '.', '2', '.', '3', '.', '4'] (by decide)
def base2000 : CStr := lit ['2', '.', '0', '.', '0', '.', '0'] (by decide)

/-- a little-endian host; the two addresses, as `inet_pton` reads them -/
def host : Host where
  big := false
  ulongMax := 18446744073709551615
  pton4 := fun s =>
    if s = base1234.bytes then some 0x01020304 else if s = base2000.bytes then some 0x02000000 else none
  pton6 := fun _ => none

/-- behind the base address 1.2.3.4 -/
def config (args : List CStr) : Config := ⟨args, 0, State.init.push (f := .inet) ⟨32, htonl false 0x01020304⟩⟩

def argPop : CStr := lit ['p', 'o', 'p'] (by decide)
def argPref : CStr := lit ['p', 'r', 'e', 'f', 'i', 'x'] (by decide)
def argNext : CStr := lit ['n', 'e', 'x', 't'] (by decide)
def argPrint : CStr := lit ['p', 'r', 'i', 'n', 't'] (by decide)
def argLen24 : CStr := lit ['2', '4'] (by decide)
def arg99 : CStr := lit ['9', '9'] (by decide)

def walkArgs : List CStr := [argPref, argLen24, argNext, argLen24, argPrint, argNext, argLen24, argPop]

end Owipcalc
