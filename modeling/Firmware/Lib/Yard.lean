import Mathlib.Data.List.TakeWhile
import Mathlib.Data.List.Pairwise
import Mathlib.Tactic.Linarith

/-!
# Operators on a stack

Infix to postfix: operands pass, an operator waits on a stack until one comes that closes it.

* `yard`               the loop, over operands and operators without parentheses;
* `eval`, `heights`    the stack machine for postfix, and the height of its stack;
* `Infix`, `Tree`      well-formed infix, by precedence and association, and what it means;
* `yard_infix`         of well-formed infix the postfix of its tree comes out;
* `settled`            how many operators have been closed;
* `Complete`           the lists, well formed or not, of which the postfix can be evaluated;
* `heights_yard`       it can be for exactly these.
-/

set_option linter.unusedVariables false

namespace Yard

variable {α ω D : Type}

inductive Item (α ω : Type)
  | val (a : α)
  | op (o : ω)

/-- how tightly the operators bind, and which of them associate to the left -/
structure Table (ω : Type) where
  prec : ω → Nat
  left : ω → Bool

/-- `o`, read behind `p`, makes `p` apply first -/
def Table.closes (T : Table ω) (o p : ω) : Bool :=
  if T.left o then T.prec o ≤ T.prec p else T.prec o < T.prec p

def yard (T : Table ω) : List (Item α ω) → List (Item α ω) → List ω → List (Item α ω)
  | [], out, st => out ++ st.map .op
  | .val a :: l, out, st => yard T l (out ++ [.val a]) st
  | .op o :: l, out, st =>
    yard T l (out ++ (st.takeWhile (T.closes o)).map .op) (o :: st.dropWhile (T.closes o))

/-- postfix on a stack; `none` is an operator without its operands -/
def eval (f : ω → D → D → D) (g : α → D) : List (Item α ω) → List D → Option (List D)
  | [], s => some s
  | .val a :: l, s => eval f g l (g a :: s)
  | .op o :: l, b :: a :: s => eval f g l (f o a b :: s)
  | .op _ :: _, _ => none

theorem eval_append (f : ω → D → D → D) (g : α → D) (l k : List (Item α ω)) (s : List D) :
    eval f g (l ++ k) s = (eval f g l s).bind (eval f g k) := by
  induction l generalizing s with
  | nil => rfl
  | cons i l ih =>
    cases i with
    | val a => exact ih _
    | op o =>
      match s with
      | [] => rfl
      | [a] => rfl
      | b :: a :: s => exact ih _

/-! ## Well-formed infix -/

inductive Tree (α ω : Type)
  | leaf (a : α)
  | node (o : ω) (l r : Tree α ω)

def Tree.postfix : Tree α ω → List (Item α ω)
  | leaf a => [.val a]
  | node o l r => l.postfix ++ r.postfix ++ [.op o]

def Tree.value (f : ω → D → D → D) (g : α → D) : Tree α ω → D
  | leaf a => g a
  | node o l r => f o (l.value f g) (r.value f g)

theorem eval_postfix (f : ω → D → D → D) (g : α → D) (t : Tree α ω) (s : List D) :
    eval f g t.postfix s = some (t.value f g :: s) := by
  induction t generalizing s with
  | leaf a => rfl
  | node o l r ihl ihr =>
    unfold Tree.postfix
    rw [eval_append, eval_append, ihl, Option.bind_some, ihr, Option.bind_some]
    rfl

/-- an expression of which every operator binds at least as tightly as `n`, and its tree -/
inductive Infix (T : Table ω) : Nat → List (Item α ω) → Tree α ω → Prop
  | leaf (n : Nat) (a : α) : Infix T n [.val a] (.leaf a)
  | left {n : Nat} {o : ω} {l r : List (Item α ω)} {tl tr : Tree α ω} (ho : T.left o = true)
      (hn : n ≤ T.prec o) (hl : Infix T (T.prec o) l tl) (hr : Infix T (T.prec o + 1) r tr) :
      Infix T n (l ++ .op o :: r) (.node o tl tr)
  | right {n : Nat} {o : ω} {l r : List (Item α ω)} {tl tr : Tree α ω} (ho : T.left o = false)
      (hn : n ≤ T.prec o) (hl : Infix T (T.prec o + 1) l tl) (hr : Infix T (T.prec o) r tr) :
      Infix T n (l ++ .op o :: r) (.node o tl tr)

def operators (l : List (Item α ω)) : List ω :=
  l.filterMap fun | .val _ => none | .op o => some o

theorem operators_append (l k : List (Item α ω)) : operators (l ++ k) = operators l ++ operators k :=
  List.filterMap_append

theorem operators_op (o : ω) (l : List (Item α ω)) : operators (.op o :: l) = o :: operators l := rfl

theorem operators_val (a : α) (l : List (Item α ω)) : operators (.val a :: l) = operators l := rfl

variable {T : Table ω}

theorem Infix.prec_le {n : Nat} {l : List (Item α ω)} {t : Tree α ω} (h : Infix T n l t) :
    ∀ o ∈ operators l, n ≤ T.prec o := by
  induction h with
  | leaf => exact fun o ho => nomatch ho
  | left ho hn _ _ ihl ihr | right ho hn _ _ ihl ihr =>
    intro p hp
    rw [operators_append, operators_op, List.mem_append, List.mem_cons] at hp
    rcases hp with hp | rfl | hp
    · have := ihl p hp
      omega
    · exact hn
    · have := ihr p hp
      omega

theorem closes_of_lt {o p : ω} (h : T.prec o < T.prec p) : T.closes o p = true := by
  unfold Table.closes
  split <;> simp <;> omega

theorem not_closes_of_lt {o p : ω} (h : T.prec p < T.prec o) : T.closes o p = false := by
  unfold Table.closes
  split <;> simp <;> omega

/-- an operator that closes all of `b`, and not what is below -/
theorem takeWhile_closed {o : ω} {b st : List ω} (hb : ∀ p ∈ b, T.closes o p = true)
    (hst : ∀ p ∈ st.head?, T.closes o p = false) :
    (b ++ st).takeWhile (T.closes o) = b ∧ (b ++ st).dropWhile (T.closes o) = st := by
  induction b with
  | nil =>
    cases st with
    | nil => exact ⟨rfl, rfl⟩
    | cons p st =>
      have hp := hst p rfl
      rw [List.nil_append, List.takeWhile_cons_of_neg (by rw [hp]; decide),
        List.dropWhile_cons_of_neg (by rw [hp]; decide)]
      exact ⟨rfl, rfl⟩
  | cons p b ih =>
    obtain ⟨h1, h2⟩ := ih fun q hq => hb q (List.mem_cons_of_mem _ hq)
    have hp := hb p List.mem_cons_self
    rw [List.cons_append, List.takeWhile_cons_of_pos hp, List.dropWhile_cons_of_pos hp, h1, h2]
    exact ⟨rfl, rfl⟩

/-- `l` comes out as the postfix of `t`, but for the last operators, and leaves alone what was on the
stack before -/
def Passes (T : Table ω) (n : Nat) (l : List (Item α ω)) (t : Tree α ω) : Prop :=
  ∀ (rest out : List (Item α ω)) (st : List ω),
    (∀ o ∈ operators l, ∀ p ∈ st.head?, T.closes o p = false) →
    ∃ a b, yard T (l ++ rest) out st = yard T rest (out ++ a) (b ++ st)
      ∧ a ++ b.map .op = t.postfix ∧ ∀ o ∈ b, n ≤ T.prec o

theorem Passes.node {n m k : Nat} {o : ω} {l r : List (Item α ω)} {tl tr : Tree α ω}
    (hl : Passes T m l tl) (hr : Passes T k r tr) (hbefore : ∀ p, m ≤ T.prec p → T.closes o p = true)
    (hbehind : ∀ q ∈ operators r, T.closes q o = false) (hn : n ≤ T.prec o) (hk : n ≤ k) :
    Passes T n (l ++ .op o :: r) (.node o tl tr) := by
  intro rest out st hst
  simp only [operators_append, operators_op, List.mem_append, List.mem_cons] at hst
  obtain ⟨a, b, e, hab, hb⟩ := hl (.op o :: (r ++ rest)) out st fun p hp => hst p (.inl hp)
  -- the operator closes those of the left side, and nothing below
  obtain ⟨h1, h2⟩ := takeWhile_closed (fun p hp => hbefore p (hb p hp)) (hst o (.inr (.inl rfl)))
  obtain ⟨a', b', e', hab', hb'⟩ := hr rest (out ++ a ++ b.map .op) (o :: st) fun q hq p hp => by
    rw [← Option.some.inj hp]
    exact hbehind q hq
  have hstep : yard T (.op o :: (r ++ rest)) (out ++ a) (b ++ st)
      = yard T (r ++ rest) (out ++ a ++ b.map .op) (o :: st) := by
    show yard T _ (_ ++ ((b ++ st).takeWhile _).map _) (o :: (b ++ st).dropWhile _) = _
    rw [h1, h2]
  refine ⟨a ++ b.map .op ++ a', b' ++ [o], ?_, ?_, fun p hp => ?_⟩
  · rw [List.append_assoc, List.cons_append, e, hstep, e']
    simp only [List.append_assoc, List.cons_append, List.nil_append]
  · unfold Tree.postfix
    rw [← hab, ← hab', List.map_append]
    simp only [List.append_assoc, List.map_cons, List.map_nil]
  · rcases List.mem_append.mp hp with hp | hp
    · exact Nat.le_trans hk (hb' p hp)
    · rw [List.mem_singleton.mp hp]
      exact hn

/-- **An expression passes.** -/
theorem yard_infix (hsame : ∀ o p, T.prec o = T.prec p → T.left o = T.left p) {n : Nat}
    {l : List (Item α ω)} {t : Tree α ω} (h : Infix T n l t) : Passes T n l t := by
  induction h with
  | leaf n a => exact fun rest out st _ => ⟨[.val a], [], rfl, rfl, fun o ho => nomatch ho⟩
  | @left n o l r tl tr ho hn hl hr ihl ihr =>
    refine ihl.node ihr (fun p hp => ?_) (fun q hq => not_closes_of_lt (hr.prec_le q hq)) hn (by omega)
    unfold Table.closes
    rw [if_pos ho]
    exact decide_eq_true hp
  | @right n o l r tl tr ho hn hl hr ihl ihr =>
    refine ihl.node ihr (fun p hp => closes_of_lt hp) (fun q hq => ?_) hn hn
    rcases Nat.lt_or_eq_of_le (hr.prec_le q hq) with hlt | heq
    · exact not_closes_of_lt hlt
    · unfold Table.closes
      rw [if_neg (by rw [← hsame o q heq, ho]; decide)]
      exact decide_eq_false (by omega)

/-- the postfix of the tree comes out -/
theorem yard_postfix (hsame : ∀ o p, T.prec o = T.prec p → T.left o = T.left p) {n : Nat}
    {l : List (Item α ω)} {t : Tree α ω} (h : Infix T n l t) : yard T l [] [] = t.postfix := by
  obtain ⟨a, b, e, hab, _⟩ := yard_infix hsame h [] [] [] fun o ho p hp => nomatch hp
  rw [List.append_nil] at e
  rw [e, ← hab, List.append_nil]
  rfl

/-! ## Any list of operands and operators -/

/-- the height of the stack after postfix -/
def heights : List (Item α ω) → Nat → Option Nat
  | [], n => some n
  | .val _ :: l, n => heights l (n + 1)
  | .op _ :: l, n => if 2 ≤ n then heights l (n - 1) else none

theorem eval_length (f : ω → D → D → D) (g : α → D) (l : List (Item α ω)) (s : List D) :
    (eval f g l s).map List.length = heights l s.length := by
  induction l generalizing s with
  | nil => rfl
  | cons i l ih =>
    cases i with
    | val a => exact ih _
    | op o =>
      match s with
      | [] => rfl
      | [a] => rfl
      | b :: a :: s =>
        unfold heights
        rw [if_pos (by simp)]
        exact ih _

theorem heights_append (l k : List (Item α ω)) (n : Nat) :
    heights (l ++ k) n = (heights l n).bind (heights k) := by
  induction l generalizing n with
  | nil => rfl
  | cons i l ih =>
    cases i with
    | val a => exact ih _
    | op o =>
      show (if 2 ≤ n then heights (l ++ k) (n - 1) else none) = (if 2 ≤ n then heights l (n - 1) else none).bind _
      split
      · exact ih _
      · rfl

/-- operators alone take one of the stack each, and leave one -/
theorem heights_ops (b : List ω) (n : Nat) : heights (b.map .op : List (Item α ω)) n
    = if b = [] ∨ b.length < n then some (n - b.length) else none := by
  induction b generalizing n with
  | nil => simp [heights]
  | cons o b ih =>
    show (if 2 ≤ n then heights (b.map .op : List (Item α ω)) (n - 1) else none) = _
    rw [ih]
    by_cases hb : b = []
    · subst hb
      by_cases h2 : 2 ≤ n
      · simp [h2, show 1 < n from h2]
      · simp [h2, show n ≤ 1 by omega]
    · have hlen : 0 < b.length := List.length_pos_iff.mpr hb
      by_cases h2 : b.length + 1 < n
      · rw [if_pos (by omega), if_pos (.inr (by omega)), if_pos (.inr (by rw [List.length_cons]; omega)),
          List.length_cons]
        congr 1
        omega
      · have hno : ¬ (o :: b = [] ∨ (o :: b).length < n) := by
          rw [List.length_cons]
          rintro (h | h)
          · cases h
          · omega
        rw [if_neg hno]
        split
        · rw [if_neg (by rintro (h | h); · exact hb h
                         · omega)]
        · rfl

def operands (l : List (Item α ω)) : Nat := l.length - (operators l).length

/-- how many operators of a list are closed by one behind them -/
def settled (T : Table ω) : List ω → Nat
  | [] => 0
  | p :: l => (if l.any (T.closes · p) then 1 else 0) + settled T l

/-- the operators that are not closed -/
def pending (T : Table ω) : List ω → List ω
  | [] => []
  | p :: l => if l.any (T.closes · p) then pending T l else p :: pending T l

/-- as many operands as operators and one; and wherever an operator has closed others by the time it
is read, more operands have been read than operators are closed -/
def Complete (T : Table ω) (l : List (Item α ω)) : Prop :=
  operands l = (operators l).length + 1 ∧
    ∀ pre o post, l = pre ++ .op o :: post →
      settled T (operators pre ++ [o]) = 0 ∨ settled T (operators pre ++ [o]) < operands pre

theorem operators_length_le (l : List (Item α ω)) : (operators l).length ≤ l.length :=
  List.length_filterMap_le _ _

theorem operands_val (l : List (Item α ω)) (a : α) : operands (l ++ [.val a]) = operands l + 1 := by
  have h := operators_length_le l
  unfold operands
  rw [operators_append, operators_val, List.length_append, List.length_append, List.length_singleton]
  show _ - ((operators l).length + 0) = _
  omega

theorem operands_op (l : List (Item α ω)) (o : ω) : operands (l ++ [.op o]) = operands l := by
  have h := operators_length_le l
  unfold operands
  rw [operators_append, operators_op, List.length_append, List.length_append, List.length_singleton]
  show _ - ((operators l).length + 1) = _
  omega

theorem settled_add_pending (l : List ω) : settled T l + (pending T l).length = l.length := by
  induction l with
  | nil => rfl
  | cons p l ih =>
    unfold settled pending
    split <;> simp only [List.length_cons] <;> omega

theorem pending_snoc (l : List ω) (o : ω) :
    pending T (l ++ [o]) = (pending T l).filter (fun p => !T.closes o p) ++ [o] := by
  induction l with
  | nil => rfl
  | cons p l ih =>
    have hany : (l ++ [o]).any (T.closes · p) = (l.any (T.closes · p) || T.closes o p) := by
      rw [List.any_append, List.any_cons, List.any_nil, Bool.or_false]
    rw [List.cons_append]
    unfold pending
    rw [hany, ih]
    cases h1 : l.any (T.closes · p) with
    | true => simp
    | false =>
      cases h2 : T.closes o p with
      | true => simp [h2]
      | false => simp [h2]

/-- of what is left, nothing closes what is before it -/
theorem pending_mem {l : List ω} {p : ω} (h : p ∈ pending T l) : p ∈ l := by
  induction l with
  | nil => cases h
  | cons q l ih =>
    unfold pending at h
    split at h
    · exact List.mem_cons_of_mem _ (ih h)
    · rcases List.mem_cons.mp h with rfl | h
      · exact List.mem_cons_self
      · exact List.mem_cons_of_mem _ (ih h)

theorem pending_pairwise (l : List ω) : (pending T l).Pairwise fun p q => T.closes q p = false := by
  induction l with
  | nil => exact List.Pairwise.nil
  | cons p l ih =>
    unfold pending
    split
    · exact ih
    · next h =>
      refine List.pairwise_cons.mpr ⟨fun q hq => ?_, ih⟩
      rw [Bool.not_eq_true, List.any_eq_false] at h
      exact Bool.eq_false_iff.mpr (h q (pending_mem hq))

/-- what closes an operator also closes those above it -/
theorem closes_above {o p q : ω} (h : T.closes o p = true) (hq : T.closes q p = false) :
    T.closes o q = true := by
  unfold Table.closes at *
  split at h <;> split at hq <;> split <;> simp_all <;> omega

/-- the top of the stack is what the next operator closes -/
theorem takeWhile_filter {f : ω → Bool} : ∀ {st : List ω},
    st.Pairwise (fun q p => f p = true → f q = true) →
    st.takeWhile f = st.filter f ∧ st.dropWhile f = st.filter (fun p => !f p)
  | [], _ => ⟨rfl, rfl⟩
  | q :: st, h => by
    obtain ⟨hq, hst⟩ := List.pairwise_cons.mp h
    cases hf : f q with
    | true =>
      obtain ⟨h1, h2⟩ := takeWhile_filter hst
      rw [List.takeWhile_cons_of_pos hf, List.dropWhile_cons_of_pos hf, List.filter_cons_of_pos hf,
        List.filter_cons_of_neg (by simp [hf]), h1, h2]
      exact ⟨rfl, rfl⟩
    | false =>
      have hno : ∀ p ∈ st, f p = false := fun p hp => Bool.eq_false_iff.mpr fun ht => by
        rw [hq p hp ht] at hf
        cases hf
      rw [List.takeWhile_cons_of_neg (by simp [hf]), List.dropWhile_cons_of_neg (by simp [hf]),
        List.filter_cons_of_neg (by simp [hf]), List.filter_cons_of_pos (by simp [hf]),
        List.filter_eq_nil_iff.mpr (fun p hp => by simp [hno p hp]),
        List.filter_eq_self.mpr (fun p hp => by simp [hno p hp])]
      exact ⟨rfl, rfl⟩

theorem yard_out (T : Table ω) (l out : List (Item α ω)) (st : List ω) :
    yard T l out st = out ++ yard T l [] st := by
  induction l generalizing out st with
  | nil => rfl
  | cons i l ih =>
    cases i with
    | val a =>
      show yard T l (out ++ [.val a]) st = out ++ yard T l ([] ++ [.val a]) st
      rw [ih (out ++ [Item.val a]), ih ([] ++ [Item.val a]), List.append_assoc, List.nil_append]
    | op o =>
      show yard T l (out ++ _) (o :: st.dropWhile (T.closes o))
        = out ++ yard T l ([] ++ _) (o :: st.dropWhile (T.closes o))
      rw [ih (out ++ _), ih ([] ++ _), List.append_assoc, List.nil_append]

/-- the stack of the loop behind `pre`, and the height to which `out` evaluates -/
structure Behind (T : Table ω) (pre out : List (Item α ω)) (st : List ω) (n : Nat) : Prop where
  out : heights out 0 = some n
  stack : st = (pending T (operators pre)).reverse
  count : n + settled T (operators pre) = operands pre
  pos : settled T (operators pre) = 0 ∨ 1 ≤ n

theorem Behind.start : Behind T ([] : List (Item α ω)) [] [] 0 := ⟨rfl, rfl, rfl, .inl rfl⟩

theorem Behind.val {pre out : List (Item α ω)} {st : List ω} {n : Nat} (h : Behind T pre out st n)
    (a : α) : Behind T (pre ++ [.val a]) (out ++ [.val a]) st (n + 1) := by
  have ho : operators (pre ++ [Item.val a]) = operators pre := by
    rw [operators_append, operators_val]
    exact List.append_nil _
  refine ⟨?_, by rw [ho]; exact h.stack, ?_, .inr (by omega)⟩
  · rw [heights_append, h.out]
    rfl
  · have hc := h.count
    rw [ho, operands_val]
    omega

/-- what an operator closes is what is settled with it -/
theorem Behind.split {pre out : List (Item α ω)} {st : List ω} {n : Nat} (h : Behind T pre out st n)
    (o : ω) : o :: st.dropWhile (T.closes o) = (pending T (operators pre ++ [o])).reverse
      ∧ settled T (operators pre ++ [o])
        = settled T (operators pre) + (st.takeWhile (T.closes o)).length := by
  have hpair : st.Pairwise fun q p => T.closes o p = true → T.closes o q = true := by
    rw [h.stack, List.pairwise_reverse]
    exact (pending_pairwise _).imp fun hqp hp => closes_above hp hqp
  obtain ⟨h1, h2⟩ := takeWhile_filter hpair
  have hp : o :: st.dropWhile (T.closes o) = (pending T (operators pre ++ [o])).reverse := by
    rw [pending_snoc, List.reverse_append, List.reverse_singleton, ← List.filter_reverse, ← h.stack, h2]
    rfl
  refine ⟨hp, ?_⟩
  have e1 := settled_add_pending (T := T) (operators pre ++ [o])
  have e2 := settled_add_pending (T := T) (operators pre)
  have e3 := congrArg List.length hp
  have e4 := congrArg List.length h.stack
  have e5 : (st.takeWhile (T.closes o)).length + (st.dropWhile (T.closes o)).length = st.length := by
    rw [← List.length_append, List.takeWhile_append_dropWhile]
  rw [List.length_cons, List.length_reverse] at e3
  rw [List.length_reverse] at e4
  rw [List.length_append, List.length_singleton] at e1
  omega

theorem Behind.op {pre out : List (Item α ω)} {st : List ω} {n : Nat} (h : Behind T pre out st n)
    {o : ω} (hk : st.takeWhile (T.closes o) = [] ∨ (st.takeWhile (T.closes o)).length < n) :
    Behind T (pre ++ [.op o]) (out ++ (st.takeWhile (T.closes o)).map .op)
      (o :: st.dropWhile (T.closes o)) (n - (st.takeWhile (T.closes o)).length) := by
  have ho : operators (pre ++ [Item.op o]) = operators pre ++ [o] := operators_append _ _
  obtain ⟨hp, hs⟩ := h.split o
  have hc := h.count
  have hpos := h.pos
  refine ⟨?_, by rw [ho]; exact hp, ?_, ?_⟩
  · rw [heights_append, h.out, Option.bind_some, heights_ops, if_pos hk]
  · rw [ho, hs, operands_op]
    rcases hk with hk | hk
    · rw [hk, List.length_nil]
      omega
    · omega
  · rw [ho, hs]
    rcases hk with hk | hk
    · rw [hk, List.length_nil]
      omega
    · omega

theorem heights_behind (l : List (Item α ω)) : ∀ {pre out : List (Item α ω)} {st : List ω} {n : Nat},
    Behind T pre out st n → (heights (yard T l out st) 0 = some 1 ↔
      operands (pre ++ l) = (operators (pre ++ l)).length + 1 ∧
      ∀ p o q, l = p ++ .op o :: q → settled T (operators (pre ++ p) ++ [o]) = 0
        ∨ settled T (operators (pre ++ p) ++ [o]) < operands (pre ++ p)) := by
  induction l with
  | nil =>
    intro pre out st n h
    have e1 := settled_add_pending (T := T) (operators pre)
    have e2 := congrArg List.length h.stack
    have hc := h.count
    rw [List.length_reverse] at e2
    have hno : ∀ p o q, ([] : List (Item α ω)) = p ++ .op o :: q → settled T (operators (pre ++ p) ++ [o]) = 0
        ∨ settled T (operators (pre ++ p) ++ [o]) < operands (pre ++ p) := by
      intro p o q hl
      cases p <;> cases hl
    rw [List.append_nil]
    show heights (out ++ st.map .op) 0 = some 1 ↔ _
    rw [heights_append, h.out, Option.bind_some, heights_ops]
    constructor
    · intro hs
      split at hs
      · have := Option.some.inj hs
        exact ⟨by omega, hno⟩
      · cases hs
    · rintro ⟨hs, -⟩
      rw [if_pos (.inr (by omega))]
      congr 1
      omega
  | cons i l ih =>
    intro pre out st n h
    cases i with
    | val a =>
      show heights (yard T l (out ++ [.val a]) st) 0 = some 1 ↔ _
      rw [ih (h.val a)]
      simp only [List.append_assoc, List.singleton_append]
      refine and_congr_right fun _ => ⟨fun hall p o q hl => ?_, fun hall p o q hl => hall (.val a :: p) o q (by rw [hl]; rfl)⟩
      cases p with
      | nil => cases hl
      | cons x p =>
        obtain ⟨rfl, hl'⟩ := List.cons.inj hl
        exact hall p o q hl'
    | op o =>
      obtain ⟨-, hs⟩ := h.split o
      have hc := h.count
      have hpos := h.pos
      show heights (yard T l (out ++ (st.takeWhile (T.closes o)).map .op) (o :: st.dropWhile (T.closes o))) 0
        = some 1 ↔ _
      by_cases hk : st.takeWhile (T.closes o) = [] ∨ (st.takeWhile (T.closes o)).length < n
      · rw [ih (h.op hk)]
        simp only [List.append_assoc, List.singleton_append]
        refine and_congr_right fun _ => ⟨fun hall p o' q hl => ?_, fun hall p o' q hl => hall (.op o :: p) o' q (by rw [hl]; rfl)⟩
        cases p with
        | nil =>
          obtain ⟨ho, rfl⟩ := List.cons.inj hl
          cases ho
          rw [List.append_nil, hs]
          rcases hk with hk | hk
          · rw [hk, List.length_nil]
            omega
          · omega
        | cons x p =>
          obtain ⟨rfl, hl'⟩ := List.cons.inj hl
          exact hall p o' q hl'
      · constructor
        · intro hh
          rw [yard_out, heights_append, heights_append, h.out, Option.bind_some, heights_ops, if_neg hk] at hh
          cases hh
        · rintro ⟨-, hall⟩
          have h0 := hall [] o l rfl
          rw [List.append_nil, hs] at h0
          have hne : 0 < (st.takeWhile (T.closes o)).length := List.length_pos_iff.mpr fun e => hk (.inl e)
          have hge : ¬ (st.takeWhile (T.closes o)).length < n := fun e => hk (.inr e)
          omega

/-- **What can be evaluated**: the postfix of a list leaves one value exactly if the list is complete. -/
theorem heights_yard (l : List (Item α ω)) : heights (yard T l [] []) 0 = some 1 ↔ Complete T l := by
  rw [heights_behind l Behind.start]
  rfl

theorem yard_length (T : Table ω) (l out : List (Item α ω)) (st : List ω) :
    (yard T l out st).length = l.length + out.length + st.length := by
  induction l generalizing out st with
  | nil =>
    show (out ++ st.map Item.op).length = _
    rw [List.length_append, List.length_map, List.length_nil, Nat.zero_add]
  | cons i l ih =>
    cases i with
    | val a =>
      show (yard T l (out ++ [.val a]) st).length = _
      rw [ih, List.length_append, List.length_singleton, List.length_cons]
      omega
    | op o =>
      have hst := congrArg List.length (List.takeWhile_append_dropWhile (p := T.closes o) (l := st))
      show (yard T l (out ++ _) (o :: st.dropWhile (T.closes o))).length = _
      rw [List.length_append] at hst
      rw [ih, List.length_append, List.length_map, List.length_cons, List.length_cons]
      omega

theorem heights_pos {l : List (Item α ω)} {n m : Nat} (h : heights l n = some m) (hl : l ≠ [] ∨ 0 < n) :
    0 < m := by
  induction l generalizing n with
  | nil =>
    obtain rfl := Option.some.inj h
    exact hl.resolve_left (fun hne => hne rfl)
  | cons i l ih =>
    cases i with
    | val a => exact ih h (.inr (Nat.succ_pos n))
    | op o =>
      have h' : (if 2 ≤ n then heights l (n - 1) else none) = some m := h
      split at h'
      · exact ih h' (.inr (by omega))
      · cases h'

/-- nothing is left only of the empty list -/
theorem heights_yard_zero (l : List (Item α ω)) : heights (yard T l [] []) 0 = some 0 ↔ l = [] := by
  constructor
  · intro h
    by_contra hne
    refine Nat.lt_irrefl 0 (heights_pos h (.inl fun he => hne ?_))
    have hlen := yard_length T l [] []
    rw [he] at hlen
    exact List.length_eq_zero_iff.mp hlen.symm
  · rintro rfl
    rfl

end Yard
