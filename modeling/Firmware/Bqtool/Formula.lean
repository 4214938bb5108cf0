import Firmware.Lib.Deque
import Firmware.Bqtool.Tokens

/-!
# bqtool: formulas

`parse_expression` and `evaluate_expr`.  The outer `none` is what C leaves open: the operator of a
parenthesis, which nobody has set, a freed node, or the value behind NULL.  The inner one is a
reported error.

* `parseExpression`, `evaluateExpr`, `formula` the functions;
* `opInside`, `matched`, `flat` what matters of the parentheses;
* `parseExpression_spec`, `evaluateExpr_spec` the functions are the yard and the stack machine;
* `formula_iff`       for which texts the two do what they should.
-/

set_option linter.unusedVariables false

namespace Bqtool
open Yard Deque

/-- `tok->op` -/
def Tok.op : Tok → Option Op
  | .operator o => some o
  | _ => none

/-! ## `parse_expression` -/

/-- the operators on top of `op_stack` that come before `o`; `n` bounds the nodes of the stack -/
def popHigher (o : Op) : Nat → Queue Tok → Queue Tok → Option (Queue Tok × Queue Tok)
  | 0, _, _ => none
  | n + 1, outq, opStack => do
    match ← front opStack with
    | none => some (outq, opStack)
    | some tmpTok => do
      let p ← tmpTok.op
      if (o.leftAssociative ∧ o.prec ≤ p.prec) ∨ (¬ o.leftAssociative ∧ o.prec < p.prec) then do
        let outq ← pushBack outq tmpTok
        let (_, opStack) ← popFront opStack
        popHigher o n outq opStack
      else some (outq, opStack)

/-- what is on top of the first left parenthesis, and whether there is one -/
def popToLeft : Nat → Queue Tok → Queue Tok → Option (Bool × Queue Tok × Queue Tok)
  | 0, _, _ => none
  | n + 1, outq, opStack => do
    match ← popFront opStack with
    | (none, opStack) => some (false, outq, opStack)
    | (some tmpTok, opStack) =>
      if tmpTok = .left then some (true, outq, opStack)
      else do
        let outq ← pushBack outq tmpTok
        popToLeft n outq opStack

def parseLoop : Nat → List UInt8 → Queue Tok → Queue Tok → Option (Option (Queue Tok × Queue Tok))
  | 0, _, _, _ => none
  | n + 1, expr, outq, opStack =>
    match getExprToken expr with
    | none => some (some (outq, opStack))
    | some (tok, expr) =>
      match tok with
      | .operand _ => do
        let outq ← pushBack outq tok
        parseLoop n expr outq opStack
      | .operator o => do
        let (outq, opStack) ← popHigher o (opStack.nodes.length + 1) outq opStack
        let opStack ← pushFront opStack tok
        parseLoop n expr outq opStack
      | .left => do
        let opStack ← pushFront opStack tok
        parseLoop n expr outq opStack
      | .right => do
        let (left, outq, opStack) ← popToLeft (opStack.nodes.length + 1) outq opStack
        if left then parseLoop n expr outq opStack else some none

/-- behind the last token -/
def parseEnd (outq opStack : Queue Tok) : Option (Option (Queue Tok)) := do
  let (left, outq, _) ← popToLeft (opStack.nodes.length + 1) outq opStack
  some (if left then none else some outq)

def parseExpression (expr : List UInt8) : Option (Option (Queue Tok)) := do
  match ← parseLoop (expr.length + 1) expr create create with
  | none => some none
  | some (outq, opStack) => parseEnd outq opStack

/-! ## `evaluate_expr` -/

/-- the numbers: what a text is, and the functions of the operators -/
structure Arith (D : Type) where
  strtod : List UInt8 → D
  fp : Op → D → D → D

variable {D : Type} (A : Arith D) (val : D)

def Arith.operand : Operand → D
  | .const s => A.strtod s
  | .x => val

def evaluateLoop : Nat → Queue Tok → Queue D → Option (Option (Queue D))
  | 0, _, _ => none
  | n + 1, rpnQ, opndStack => do
    match ← getNext rpnQ with
    | (none, _) => some (some opndStack)
    | (some tok, rpnQ) =>
      match tok with
      | .operand a => do
        let opndStack ← pushFront opndStack (A.operand val a)
        evaluateLoop n rpnQ opndStack
      | .operator o => do
        let (opnd2, opndStack) ← popFront opndStack
        let opnd1 ← front opndStack
        match opnd1, opnd2 with
        | some opnd1, some opnd2 => do
          let opndStack ← setFront opndStack (A.fp o opnd1 opnd2)
          evaluateLoop n rpnQ opndStack
        | _, _ => some none
      | _ => evaluateLoop n rpnQ opndStack

def evaluateExpr (rpnQ : Queue Tok) : Option (Option D) := do
  match ← evaluateLoop A val (rpnQ.nodes.length + 1) (resetIterator rpnQ) create with
  | none => some none
  | some opndStack => do
    let (opnd1, opndStack) ← getNext (resetIterator opndStack)
    let (opnd2, _) ← getNext opndStack
    let result ← opnd1
    some (if opnd2.isSome then none else some result)

/-- a formula, parsed and evaluated -/
def formula (expr : List UInt8) : Option (Option D) := do
  match ← parseExpression expr with
  | none => some none
  | some rpnQ => evaluateExpr A val rpnQ

/-! ## Parentheses -/

/-- an operator is read behind `d` left parentheses or more, before a right one too many -/
def opInside : Nat → List Tok → Bool
  | _, [] => false
  | d, .operand _ :: ts => opInside d ts
  | d, .operator _ :: ts => 0 < d || opInside d ts
  | d, .left :: ts => opInside (d + 1) ts
  | 0, .right :: _ => false
  | d + 1, .right :: ts => opInside d ts

def matched : Nat → List Tok → Bool
  | d, [] => d = 0
  | d, .operand _ :: ts => matched d ts
  | d, .operator _ :: ts => matched d ts
  | d, .left :: ts => matched (d + 1) ts
  | 0, .right :: _ => false
  | d + 1, .right :: ts => matched d ts

def Tok.item : Tok → Option (Item Operand Op)
  | .operand a => some (.val a)
  | .operator o => some (.op o)
  | _ => none

/-- the operands and the operators -/
def flat (ts : List Tok) : List (Item Operand Op) := ts.filterMap Tok.item

/-! ## The stack of operators -/

def tokOf : Item Operand Op → Tok
  | .val a => .operand a
  | .op o => .operator o

/-- `out` has come out, and on the stack `d` left parentheses are above the operators `st` -/
structure At (d : Nat) (out : List (Item Operand Op)) (st : List Op) (outq opStack : Queue Tok) : Prop where
  outq : Ended outq (out.map tokOf)
  stack : Deque.Holds opStack (List.replicate d .left ++ st.map .operator)

theorem create_at : At 0 [] [] create create := ⟨create_ended, create_ended.holds⟩

theorem At.bound {d : Nat} {out : List (Item Operand Op)} {st : List Op} {outq opStack : Queue Tok}
    (h : At d out st outq opStack) : st.length < opStack.nodes.length + 1 := by
  have hle := h.stack.length_le
  rw [List.length_append, List.length_map] at hle
  omega

/-- an item comes out -/
theorem At.push {d : Nat} {out : List (Item Operand Op)} {st : List Op} {outq opStack : Queue Tok}
    (h : At d out st outq opStack) (i : Item Operand Op) :
    ∃ outq', pushBack outq (tokOf i) = some outq' ∧ At d (out ++ [i]) st outq' opStack := by
  obtain ⟨outq', hp, he⟩ := pushBack_ended h.outq (tokOf i)
  refine ⟨outq', hp, ?_, h.stack⟩
  rwa [List.map_append]

theorem closes_iff (o p : Op) : table.closes o p = true
    ↔ (o.leftAssociative ∧ o.prec ≤ p.prec) ∨ (¬ o.leftAssociative ∧ o.prec < p.prec) := by
  show (if o.leftAssociative then decide (o.prec ≤ p.prec) else decide (o.prec < p.prec)) = true ↔ _
  cases o.leftAssociative <;> simp

theorem popHigher_run (o : Op) {n : Nat} : ∀ {st : List Op} {out : List (Item Operand Op)}
    {outq opStack : Queue Tok}, At 0 out st outq opStack → st.length < n →
    ∃ outq' opStack', popHigher o n outq opStack = some (outq', opStack')
      ∧ At 0 (out ++ (st.takeWhile (table.closes o)).map .op) (st.dropWhile (table.closes o)) outq' opStack' := by
  induction n with
  | zero => exact fun _ hn => absurd hn (Nat.not_lt_zero _)
  | succ n ih =>
    intro st out outq opStack h hn
    have hfront := front_holds h.stack
    unfold popHigher
    rw [hfront]
    cases st with
    | nil => exact ⟨outq, opStack, rfl, by rw [List.takeWhile_nil, List.map_nil, List.append_nil]; exact h⟩
    | cons p st =>
      by_cases hc : table.closes o p = true
      · obtain ⟨outq', hp, h'⟩ := h.push (.op p)
        obtain ⟨opStack', hpop, hs⟩ := popFront_holds h.stack
        have hat : At 0 (out ++ [.op p]) st outq' opStack' := ⟨h'.outq, hs⟩
        obtain ⟨outq'', opStack'', hrun, h''⟩ := ih hat (Nat.lt_of_succ_lt_succ hn)
        refine ⟨outq'', opStack'', ?_, ?_⟩
        · show (if _ then (pushBack outq (.operator p)).bind _ else _) = _
          rw [if_pos ((closes_iff o p).mp hc), show pushBack outq (.operator p) = some outq' from hp]
          show (popFront opStack).bind _ = _
          rw [hpop]
          exact hrun
        · rw [List.takeWhile_cons_of_pos hc, List.dropWhile_cons_of_pos hc]
          rw [List.append_assoc] at h''
          exact h''
      · refine ⟨outq, opStack, ?_, ?_⟩
        · show (if _ then (pushBack outq (.operator p)).bind _ else _) = _
          rw [if_neg fun hc' => hc ((closes_iff o p).mpr hc')]
        · rw [List.takeWhile_cons_of_neg hc, List.dropWhile_cons_of_neg hc, List.map_nil, List.append_nil]
          exact h

/-- without a left parenthesis all of the stack comes out -/
theorem popToLeft_empty {n : Nat} : ∀ {st : List Op} {out : List (Item Operand Op)}
    {outq opStack : Queue Tok}, At 0 out st outq opStack → st.length < n →
    ∃ outq' opStack', popToLeft n outq opStack = some (false, outq', opStack')
      ∧ Ended outq' ((out ++ st.map Item.op).map tokOf) := by
  induction n with
  | zero => exact fun _ hn => absurd hn (Nat.not_lt_zero _)
  | succ n ih =>
    intro st out outq opStack h hn
    unfold popToLeft
    cases st with
    | nil =>
      rw [popFront_nil h.stack]
      exact ⟨outq, opStack, rfl, by rw [List.map_nil, List.append_nil]; exact h.outq⟩
    | cons p st =>
      obtain ⟨outq', hp, h'⟩ := h.push (.op p)
      obtain ⟨opStack', hpop, hs⟩ := popFront_holds h.stack
      have hat : At 0 (out ++ [.op p]) st outq' opStack' := ⟨h'.outq, hs⟩
      obtain ⟨outq'', opStack'', hrun, h''⟩ := ih hat (Nat.lt_of_succ_lt_succ hn)
      refine ⟨outq'', opStack'', ?_, ?_⟩
      · rw [hpop]
        show (pushBack outq (.operator p)).bind _ = _
        rw [show pushBack outq (.operator p) = some outq' from hp]
        exact hrun
      · rwa [List.append_assoc] at h''

theorem popToLeft_left {d n : Nat} {out : List (Item Operand Op)} {st : List Op}
    {outq opStack : Queue Tok} (h : At (d + 1) out st outq opStack) :
    ∃ opStack', popToLeft (n + 1) outq opStack = some (true, outq, opStack') ∧ At d out st outq opStack' := by
  obtain ⟨opStack', hpop, hs⟩ := popFront_holds (v := Tok.left) (l := List.replicate d .left ++ st.map .operator) h.stack
  refine ⟨opStack', ?_, h.outq, hs⟩
  unfold popToLeft
  rw [hpop]
  rfl

/-- between parentheses, an operator is compared with one that nobody has set -/
theorem popHigher_left (o : Op) {d n : Nat} {out : List (Item Operand Op)} {st : List Op}
    {outq opStack : Queue Tok} (h : At (d + 1) out st outq opStack) : popHigher o n outq opStack = none := by
  cases n with
  | zero => rfl
  | succ n =>
    unfold popHigher
    rw [front_holds h.stack]
    rfl

/-! ## All of a text -/

def parseFrom (n : Nat) (expr : List UInt8) (outq opStack : Queue Tok) : Option (Option (Queue Tok)) := do
  match ← parseLoop n expr outq opStack with
  | none => some none
  | some (outq, opStack) => parseEnd outq opStack

/-- what comes of the tokens `ts`, with `out` and `st` from those before, and `d` parentheses open -/
def Parses (d : Nat) (ts : List Tok) (out : List (Item Operand Op)) (st : List Op)
    (r : Option (Option (Queue Tok))) : Prop :=
  if opInside d ts then r = none
  else if matched d ts then ∃ q, r = some (some q) ∧ Ended q ((yard table (flat ts) out st).map tokOf)
  else r = some none

theorem parseEnd_parses {d : Nat} {out : List (Item Operand Op)} {st : List Op}
    {outq opStack : Queue Tok} (h : At d out st outq opStack) :
    Parses d [] out st (parseEnd outq opStack) := by
  cases d with
  | zero =>
    obtain ⟨outq', opStack', hrun, he⟩ := popToLeft_empty h h.bound
    refine ⟨outq', ?_, he⟩
    unfold parseEnd
    rw [hrun]
    rfl
  | succ d =>
    obtain ⟨opStack', hrun, -⟩ := popToLeft_left (n := opStack.nodes.length) h
    show parseEnd outq opStack = some none
    unfold parseEnd
    rw [hrun]
    rfl

theorem parseFrom_parses {n : Nat} : ∀ {expr : List UInt8} {d : Nat} {out : List (Item Operand Op)}
    {st : List Op} {outq opStack : Queue Tok}, expr.length < n → At d out st outq opStack →
    Parses d (tokens expr) out st (parseFrom n expr outq opStack) := by
  induction n with
  | zero => exact fun hn _ => absurd hn (Nat.not_lt_zero _)
  | succ n ih =>
    intro expr d out st outq opStack hn h
    unfold parseFrom parseLoop
    cases htok : getExprToken expr with
    | none =>
      rw [tokens_none htok]
      exact parseEnd_parses h
    | some p =>
      obtain ⟨tok, expr'⟩ := p
      have hlen := getExprToken_length htok
      have hn' : expr'.length < n := by omega
      rw [tokens_cons htok]
      cases tok with
      | operand a =>
        obtain ⟨outq', hp, h'⟩ := h.push (.val a)
        dsimp only
        rw [show pushBack outq (.operand a) = some outq' from hp]
        exact ih hn' h'
      | operator o =>
        dsimp only
        cases d with
        | succ d =>
          rw [popHigher_left o h]
          rfl
        | zero =>
          obtain ⟨outq', opStack', hpop, h'⟩ := popHigher_run o h h.bound
          obtain ⟨opStack'', hpush, hs⟩ := pushFront_holds h'.stack (.operator o)
          rw [hpop]
          show Parses 0 _ out st (((pushFront opStack' (.operator o)).bind _).bind _)
          rw [hpush]
          have hat : At 0 (out ++ (st.takeWhile (table.closes o)).map .op) (o :: st.dropWhile (table.closes o))
            outq' opStack'' := ⟨h'.outq, hs⟩
          exact ih hn' hat
      | left =>
        obtain ⟨opStack', hpush, hs⟩ := pushFront_holds h.stack .left
        dsimp only
        rw [hpush]
        exact ih (d := d + 1) hn' ⟨h.outq, hs⟩
      | right =>
        dsimp only
        cases d with
        | zero =>
          obtain ⟨outq', opStack', hrun, -⟩ := popToLeft_empty h h.bound
          rw [hrun]
          rfl
        | succ d =>
          obtain ⟨opStack', hrun, h'⟩ := popToLeft_left (n := opStack.nodes.length) h
          rw [hrun]
          exact ih hn' h'

/-- **The parser**: undefined with an operator in parentheses, else an error if they do not match, else
the postfix of the yard. -/
theorem parseExpression_spec (expr : List UInt8) : Parses 0 (tokens expr) [] [] (parseExpression expr) :=
  parseFrom_parses (Nat.lt_succ_self _) create_at

/-! ## The evaluation -/

variable {A : Arith D} {val : D}

theorem evaluateLoop_run (A : Arith D) (val : D) {n : Nat} : ∀ {l : List (Item Operand Op)} {s : List D} {rpnQ : Queue Tok}
    {opndStack : Queue D}, l.length < n → Rest rpnQ (l.map tokOf) → Deque.Holds opndStack s →
    ∃ r, evaluateLoop A val n rpnQ opndStack = some r ∧
      match eval A.fp (A.operand val) l s with
      | none => r = none
      | some s' => ∃ opndStack', r = some opndStack' ∧ Deque.Holds opndStack' s' := by
  induction n with
  | zero => exact fun hn _ _ => absurd hn (Nat.not_lt_zero _)
  | succ n ih =>
    intro l s rpnQ opndStack hn hq hs
    unfold evaluateLoop
    cases l with
    | nil =>
      rw [getNext_nil hq]
      exact ⟨some opndStack, rfl, opndStack, rfl, hs⟩
    | cons i l =>
      have hn' : l.length < n := Nat.lt_of_succ_lt_succ hn
      obtain ⟨rpnQ', hnext, hq'⟩ := getNext_rest hq
      rw [hnext]
      cases i with
      | val a =>
        obtain ⟨opndStack', hpush, hs'⟩ := pushFront_holds hs (A.operand val a)
        show ∃ r, (pushFront opndStack (A.operand val a)).bind _ = some r ∧ _
        rw [hpush]
        exact ih (l := l) hn' hq' hs'
      | op o =>
        show ∃ r, (popFront opndStack).bind _ = some r ∧ _
        match s with
        | [] =>
          rw [popFront_nil hs]
          show ∃ r, (front opndStack).bind _ = some r ∧ _
          rw [front_holds hs]
          exact ⟨none, rfl, rfl⟩
        | b :: s =>
          obtain ⟨opndStack', hpop, hs'⟩ := popFront_holds hs
          rw [hpop]
          show ∃ r, (front opndStack').bind _ = some r ∧ _
          rw [front_holds hs']
          match s with
          | [] => exact ⟨none, rfl, rfl⟩
          | a :: s =>
            obtain ⟨opndStack'', hset, hs''⟩ := setFront_holds hs' (A.fp o a b)
            show ∃ r, (setFront opndStack' (A.fp o a b)).bind _ = some r ∧ _
            rw [hset]
            exact ih (l := l) hn' hq' hs''

/-- what is made of the operands that are left -/
def outcome : Option (List D) → Option (Option D)
  | none => some none
  | some [] => none
  | some [a] => some (some a)
  | some (_ :: _ :: _) => some none

/-- **The evaluation** is the stack machine; with nothing on the stack it is undefined. -/
theorem evaluateExpr_spec {l : List (Item Operand Op)} {rpnQ : Queue Tok} (h : Deque.Holds rpnQ (l.map tokOf)) :
    evaluateExpr A val rpnQ = outcome (eval A.fp (A.operand val) l []) := by
  have hlen := h.length_le
  rw [List.length_map] at hlen
  obtain ⟨r, hrun, hr⟩ := evaluateLoop_run A val (Nat.lt_succ_of_le hlen)
    (resetIterator_rest h) create_ended.holds
  unfold evaluateExpr
  rw [hrun]
  cases he : eval A.fp (A.operand val) l [] with
  | none =>
    rw [he] at hr
    obtain rfl : r = none := hr
    rfl
  | some s =>
    rw [he] at hr
    obtain ⟨opndStack, rfl, hs⟩ := hr
    have hrest := resetIterator_rest hs
    show (getNext (resetIterator opndStack)).bind _ = _
    match s with
    | [] =>
      rw [getNext_nil hrest]
      show (getNext (resetIterator opndStack)).bind _ = _
      rw [getNext_nil hrest]
      rfl
    | a :: s =>
      obtain ⟨opndStack', hnext, hrest'⟩ := getNext_rest hrest
      rw [hnext]
      show (getNext opndStack').bind _ = _
      match s with
      | [] =>
        rw [getNext_nil hrest']
        rfl
      | b :: s =>
        obtain ⟨opndStack'', hnext', -⟩ := getNext_rest hrest'
        rw [hnext']
        rfl

/-! ## Well-formed formulas -/

theorem Expr.opInside_append {n : Nat} {ts : List Tok} {t : Tree Operand Op} (h : Expr n ts t) :
    ∀ d rest, opInside d (ts ++ rest) = (opInside d ts || opInside d rest) := by
  induction h with
  | operand n a => exact fun d rest => rfl
  | @paren n ts t h ih =>
    intro d rest
    have e1 := ih (d + 1) (.right :: rest)
    have e2 := ih (d + 1) [.right]
    show opInside (d + 1) (ts ++ [.right] ++ rest) = (opInside (d + 1) (ts ++ [.right]) || _)
    rw [List.append_assoc, e2]
    exact e1.trans (by rw [show opInside (d + 1) [.right] = false from rfl, Bool.or_false]; rfl)
  | @left n o l r tl tr ho hn hl hr ihl ihr | @right n o l r tl tr ho hn hl hr ihl ihr =>
    intro d rest
    have e : opInside d (.operator o :: (r ++ rest))
        = (opInside d (.operator o :: r) || opInside d rest) := by
      show (decide (0 < d) || _) = (decide (0 < d) || _ || _)
      rw [ihr, Bool.or_assoc]
    rw [List.append_assoc, List.cons_append, ihl, e, ihl d (.operator o :: r), Bool.or_assoc]

theorem Expr.matched_append {n : Nat} {ts : List Tok} {t : Tree Operand Op} (h : Expr n ts t) :
    ∀ d rest, matched d (ts ++ rest) = matched d rest := by
  induction h with
  | operand n a => exact fun d rest => rfl
  | @paren n ts t h ih =>
    intro d rest
    show matched (d + 1) (ts ++ [.right] ++ rest) = _
    rw [List.append_assoc, ih]
    rfl
  | left ho hn hl hr ihl ihr | right ho hn hl hr ihl ihr =>
    intro d rest
    rw [List.append_assoc, ihl]
    exact ihr d rest

theorem flat_append (as bs : List Tok) : flat (as ++ bs) = flat as ++ flat bs := List.filterMap_append

theorem flat_paren (ts : List Tok) : flat (.left :: ts ++ [.right]) = flat ts := by
  show flat (ts ++ [.right]) = _
  rw [flat_append]
  exact List.append_nil _

/-- in parentheses there is one operand, unless there is an operator -/
theorem Expr.inside {n : Nat} {ts : List Tok} {t : Tree Operand Op} (h : Expr n ts t) :
    ∀ {d : Nat}, opInside (d + 1) ts = false → ∃ a, t = .leaf a ∧ flat ts = [.val a] := by
  induction h with
  | operand n a => exact fun _ => ⟨a, rfl, rfl⟩
  | @paren n ts t h ih =>
    intro d hin
    have hin' : opInside (d + 2) (ts ++ [.right]) = false := hin
    rw [h.opInside_append] at hin'
    rw [flat_paren]
    exact ih (Bool.or_eq_false_iff.mp hin').1
  | left ho hn hl hr ihl ihr | right ho hn hl hr ihl ihr =>
    intro d hin
    rw [hl.opInside_append] at hin
    exact nomatch (Bool.or_eq_false_iff.mp hin).2

/-- an expression with no operator in parentheses is one without parentheses -/
theorem Expr.flat_infix {n : Nat} {ts : List Tok} {t : Tree Operand Op} (h : Expr n ts t)
    (hin : opInside 0 ts = false) : Infix table n (flat ts) t := by
  induction h with
  | operand n a => exact .leaf n a
  | @paren n ts t h ih =>
    have hin' : opInside 1 (ts ++ [.right]) = false := hin
    rw [h.opInside_append] at hin'
    obtain ⟨a, rfl, hf⟩ := h.inside (Bool.or_eq_false_iff.mp hin').1
    rw [flat_paren, hf]
    exact .leaf n a
  | left ho hn hl hr ihl ihr =>
    rw [hl.opInside_append] at hin
    obtain ⟨h1, h2⟩ := Bool.or_eq_false_iff.mp hin
    rw [flat_append]
    exact .left ho hn (ihl h1) (ihr h2)
  | right ho hn hl hr ihl ihr =>
    rw [hl.opInside_append] at hin
    obtain ⟨h1, h2⟩ := Bool.or_eq_false_iff.mp hin
    rw [flat_append]
    exact .right ho hn (ihl h1) (ihr h2)

theorem prec_assoc (o p : Op) (h : table.prec o = table.prec p) : table.left o = table.left p := by
  cases o <;> cases p <;> first | rfl | exact absurd h (by decide)

/-! ## What the two functions do -/

/-- what is made of a formula whose tokens are `ts` -/
def meaning (A : Arith D) (val : D) (ts : List Tok) : Option (Option D) :=
  if opInside 0 ts then none
  else if matched 0 ts then outcome (eval A.fp (A.operand val) (yard table (flat ts) [] []) [])
  else some none

theorem formula_spec (expr : List UInt8) : formula A val expr = meaning A val (tokens expr) := by
  have h := parseExpression_spec expr
  unfold Parses at h
  unfold formula meaning
  split at h
  · next hin => rw [h, if_pos hin]; rfl
  · next hin =>
    rw [if_neg hin]
    split at h
    · next hm =>
      obtain ⟨q, hq, he⟩ := h
      rw [hq, if_pos hm]
      exact evaluateExpr_spec he.holds
    · next hm => rw [h, if_neg hm]; rfl

/-- with no operator in parentheses, a well-formed formula has the value of its tree -/
theorem Formula.value {expr : List UInt8} {t : Tree Operand Op} (h : Formula expr t)
    (hin : opInside 0 (Bqtool.tokens expr) = false) :
    formula A val expr = some (some (t.value A.fp (A.operand val))) := by
  have hm := h.tokens.matched_append 0 []
  rw [List.append_nil] at hm
  rw [formula_spec]
  unfold meaning
  rw [hin, if_neg (by decide), hm, if_pos (by decide), yard_postfix prec_assoc (h.tokens.flat_infix hin), eval_postfix]
  rfl

theorem outcome_error_iff (e : Option (List D)) :
    outcome e = some none ↔ e.map List.length ≠ some 0 ∧ e.map List.length ≠ some 1 := by
  match e with
  | none => simp [outcome]
  | some [] => simp [outcome]
  | some [a] => simp [outcome]
  | some (a :: b :: s) => simp [outcome]

/-- an error is reported if the parentheses or the operands are not right -/
theorem meaning_error_iff (ts : List Tok) : meaning A val ts = some none ↔
    opInside 0 ts = false ∧ (matched 0 ts = false ∨ flat ts ≠ [] ∧ ¬ Complete table (flat ts)) := by
  unfold meaning
  cases hin : opInside 0 ts with
  | true => simp
  | false =>
    cases hm : matched 0 ts with
    | false => simp
    | true =>
      rw [if_neg (by decide), if_pos rfl, outcome_error_iff, eval_length, List.length_nil, Ne, Ne,
        heights_yard_zero, heights_yard]
      simp

/-- the text `expr` is evaluated by the rules, or it is none and that is reported -/
def Evaluates (A : Arith D) (val : D) (expr : List UInt8) : Prop :=
  (∀ t, Formula expr t → formula A val expr = some (some (t.value A.fp (A.operand val)))) ∧
  ((¬ ∃ t, Formula expr t) → formula A val expr = some none)

/-- **Formulas**: `parse_expression` and `evaluate_expr` follow the rules, and report what is no formula,
exactly if no operator is in parentheses, and a text that is no formula has parentheses that do not match,
or operands and operators of which the yard makes no postfix. -/
theorem formula_iff (A : Arith D) (val : D) (expr : List UInt8) : Evaluates A val expr ↔
    opInside 0 (tokens expr) = false ∧ ((∃ t, Formula expr t) ∨ matched 0 (tokens expr) = false
      ∨ flat (tokens expr) ≠ [] ∧ ¬ Complete table (flat (tokens expr))) := by
  constructor
  · rintro ⟨hwell, hill⟩
    by_cases hf : ∃ t, Formula expr t
    · refine ⟨?_, .inl hf⟩
      obtain ⟨t, ht⟩ := hf
      have hv := hwell t ht
      rw [formula_spec] at hv
      unfold meaning at hv
      cases hin : opInside 0 (tokens expr) with
      | false => rfl
      | true =>
        rw [hin] at hv
        cases hv
    · have hv := hill hf
      rw [formula_spec, meaning_error_iff] at hv
      exact ⟨hv.1, .inr hv.2⟩
  · rintro ⟨hin, hor⟩
    refine ⟨fun t ht => ht.value hin, fun hf => ?_⟩
    rw [formula_spec, meaning_error_iff]
    exact ⟨hin, hor.resolve_left hf⟩

/-- `(x+x)`: the operator is compared with that of the parenthesis -/
theorem formula_paren : Formula [40, 120, 43, 120, 41] (.node .add (.leaf .x) (.leaf .x)) ∧
    ¬ Evaluates ⟨fun s => (s.length : Int), fun _ a b => a + b⟩ 1 [40, 120, 43, 120, 41] := by
  have hform : Formula [40, 120, 43, 120, 41] (.node .add (.leaf .x) (.leaf .x)) := by
    refine ⟨[.left, .operand .x, .operator .add, .operand .x, .right], ?_, ?_⟩
    · exact .paren 0 (.left rfl (Nat.zero_le _) (.operand _ .x) (.operand _ .x))
    · exact .cons (w := [40]) rfl (.cons (w := [120]) (.inl rfl) (.cons (w := [43]) rfl
        (.cons (w := [120]) (.inl rfl) (.cons (w := [41]) rfl .nil))))
  refine ⟨hform, fun h => ?_⟩
  have hv := h.1 _ hform
  rw [formula_spec] at hv
  exact nomatch hv

end Bqtool
