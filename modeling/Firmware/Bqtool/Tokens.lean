import Firmware.Lib.Strtod
import Firmware.Lib.Yard

/-!
# bqtool: tokens of a formula

`get_operator` and `get_expr_token`, and the texts of well-formed formulas.

* `Op`, `Tok`, `getExprToken` the operators, the tokens, and the next one of a text;
* `tokens`       those before the end of a text, or before what is none;
* `Expr`         the expressions with parentheses, and their trees;
* `Formula`      the texts of such expressions;
* `Formula.tokens` such a text is read as it was spelled.
-/

set_option linter.unusedVariables false

namespace Bqtool
open Scanf Yard

inductive Op
  | exponent | mult | div | add | subtract
deriving DecidableEq

def Op.opChar : Op → UInt8
  | .exponent => 94
  | .mult => 42
  | .div => 47
  | .add => 43
  | .subtract => 45

def Op.prec : Op → Nat
  | .exponent => 6
  | .mult => 5
  | .div => 5
  | .add => 4
  | .subtract => 4

def Op.leftAssociative : Op → Bool
  | .exponent => false
  | _ => true

/-- the table `operators` -/
def operators : List Op := [.exponent, .mult, .div, .add, .subtract]

def getOperator (c : UInt8) : Option Op := operators.find? fun o => o.opChar = c

/-- `OPERAND_CONST` with the text of the number, and `OPERAND_X` -/
inductive Operand
  | const (s : List UInt8)
  | x
deriving DecidableEq

inductive Tok
  | operand (a : Operand)
  | operator (o : Op)
  | left
  | right
deriving DecidableEq

/-- the token at the beginning of a text, and the rest; `none` at the end and at what is no token -/
def getExprToken : List UInt8 → Option (Tok × List UInt8)
  | [] => none
  | c :: tmp =>
    if isdigit c then some (.operand (.const (Strtod.strtod (c :: tmp)).1), (Strtod.strtod (c :: tmp)).2)
    else if c = 120 ∨ c = 88 then some (.operand .x, tmp)
    else if c = 40 then some (.left, tmp)
    else if c = 41 then some (.right, tmp)
    else (getOperator c).map fun o => (.operator o, tmp)

theorem getExprToken_cons (c : UInt8) (tmp : List UInt8) : getExprToken (c :: tmp)
    = if isdigit c then some (.operand (.const (Strtod.strtod (c :: tmp)).1), (Strtod.strtod (c :: tmp)).2)
      else if c = 120 ∨ c = 88 then some (.operand .x, tmp)
      else if c = 40 then some (.left, tmp)
      else if c = 41 then some (.right, tmp)
      else (getOperator c).map fun o => (.operator o, tmp) := rfl

theorem getExprToken_length {e e' : List UInt8} {t : Tok} (h : getExprToken e = some (t, e')) :
    e'.length < e.length := by
  cases e with
  | nil => cases h
  | cons c tmp =>
    rw [getExprToken_cons] at h
    split at h
    · next hd =>
      obtain ⟨-, rfl⟩ := Prod.mk.inj (Option.some.inj h)
      have hj := congrArg List.length (Strtod.strtod_join (c :: tmp))
      have ht := List.length_pos_iff.mpr (Strtod.strtod_taken hd tmp)
      rw [List.length_append] at hj
      omega
    · have htmp : e' = tmp := by
        split at h
        · exact (Prod.mk.inj (Option.some.inj h)).2.symm
        · split at h
          · exact (Prod.mk.inj (Option.some.inj h)).2.symm
          · split at h
            · exact (Prod.mk.inj (Option.some.inj h)).2.symm
            · obtain ⟨o, -, ho⟩ := Option.map_eq_some_iff.mp h
              exact (Prod.mk.inj ho).2.symm
      rw [htmp, List.length_cons]
      omega

/-- the tokens of a text that is no longer than `n` -/
def tokensUpTo : Nat → List UInt8 → List Tok
  | 0, _ => []
  | n + 1, e =>
    match getExprToken e with
    | none => []
    | some (t, e) => t :: tokensUpTo n e

def tokens (e : List UInt8) : List Tok := tokensUpTo e.length e

theorem tokensUpTo_eq {e : List UInt8} : ∀ {n m : Nat}, e.length ≤ n → e.length ≤ m →
    tokensUpTo n e = tokensUpTo m e := by
  intro n
  induction n generalizing e with
  | zero =>
    intro m hn hm
    obtain rfl := List.length_eq_zero_iff.mp (Nat.le_zero.mp hn)
    cases m <;> rfl
  | succ n ih =>
    intro m hn hm
    cases m with
    | zero =>
      obtain rfl := List.length_eq_zero_iff.mp (Nat.le_zero.mp hm)
      rfl
    | succ m =>
      unfold tokensUpTo
      cases h : getExprToken e with
      | none => rfl
      | some p =>
        have hl : p.2.length < e.length := getExprToken_length h
        show p.1 :: tokensUpTo n p.2 = p.1 :: tokensUpTo m p.2
        rw [ih (m := m) (by omega) (by omega)]

theorem tokens_cons {e e' : List UInt8} {t : Tok} (h : getExprToken e = some (t, e')) :
    tokens e = t :: tokens e' := by
  have hl := getExprToken_length h
  unfold tokens
  obtain ⟨n, hn⟩ : ∃ n, e.length = n + 1 := ⟨e.length - 1, by omega⟩
  rw [hn]
  show (match getExprToken e with | none => [] | some (t, e) => t :: tokensUpTo n e) = _
  rw [h]
  show t :: tokensUpTo n e' = _
  rw [tokensUpTo_eq (m := e'.length) (by omega) (Nat.le_refl _)]

theorem tokens_none {e : List UInt8} (h : getExprToken e = none) : tokens e = [] := by
  unfold tokens
  cases he : e.length with
  | zero => rfl
  | succ n =>
    unfold tokensUpTo
    rw [h]

/-! ## Well-formed formulas -/

def table : Table Op := ⟨Op.prec, Op.leftAssociative⟩

/-- the expressions of which every operator outside of parentheses binds at least as tightly as `n` -/
inductive Expr : Nat → List Tok → Tree Operand Op → Prop
  | operand (n : Nat) (a : Operand) : Expr n [.operand a] (.leaf a)
  | paren (n : Nat) {ts : List Tok} {t : Tree Operand Op} (h : Expr 0 ts t) :
      Expr n (.left :: ts ++ [.right]) t
  | left {n : Nat} {o : Op} {l r : List Tok} {tl tr : Tree Operand Op} (ho : o.leftAssociative = true)
      (hn : n ≤ o.prec) (hl : Expr o.prec l tl) (hr : Expr (o.prec + 1) r tr) :
      Expr n (l ++ .operator o :: r) (.node o tl tr)
  | right {n : Nat} {o : Op} {l r : List Tok} {tl tr : Tree Operand Op} (ho : o.leftAssociative = false)
      (hn : n ≤ o.prec) (hl : Expr (o.prec + 1) l tl) (hr : Expr o.prec r tr) :
      Expr n (l ++ .operator o :: r) (.node o tl tr)

/-- the texts of a token; a constant begins with a digit and is all of a number -/
def Tok.Spelled : Tok → List UInt8 → Prop
  | .operand (.const s), w => w = s ∧ (∃ c ∈ s.head?, isdigit c = true) ∧ Strtod.strtod s = (s, [])
  | .operand .x, w => w = [120] ∨ w = [88]
  | .operator o, w => w = [o.opChar]
  | .left, w => w = [40]
  | .right, w => w = [41]

/-- the texts of a list of tokens -/
inductive Spells : List Tok → List UInt8 → Prop
  | nil : Spells [] []
  | cons {t : Tok} {ts : List Tok} {w e : List UInt8} (h : t.Spelled w) (hs : Spells ts e) :
      Spells (t :: ts) (w ++ e)

/-- the text `e` is a well-formed formula with the tree `t` -/
def Formula (e : List UInt8) (t : Tree Operand Op) : Prop := ∃ ts, Expr 0 ts t ∧ Spells ts e

theorem Spells.split {as bs : List Tok} {e : List UInt8} (h : Spells (as ++ bs) e) :
    ∃ e1 e2, e = e1 ++ e2 ∧ Spells as e1 ∧ Spells bs e2 := by
  induction as generalizing e with
  | nil => exact ⟨[], e, rfl, .nil, h⟩
  | cons t as ih =>
    cases h with
    | @cons _ _ w e h hs =>
      obtain ⟨e1, e2, rfl, h1, h2⟩ := ih hs
      exact ⟨w ++ e1, e2, (List.append_assoc _ _ _).symm, .cons h h1, h2⟩

theorem token_operator (o : Op) (e : List UInt8) : getExprToken (o.opChar :: e) = some (.operator o, e) := by
  cases o <;> rfl

theorem ends_opChar (o : Op) : Strtod.ends o.opChar = true := by cases o <;> decide

theorem token_operand {a : Operand} {w r : List UInt8} (h : (Tok.operand a).Spelled w)
    (hr : ∀ c ∈ r.head?, Strtod.ends c = true) : getExprToken (w ++ r) = some (.operand a, r) := by
  cases a with
  | x =>
    rcases (h : w = [120] ∨ w = [88]) with rfl | rfl <;> rfl
  | const s =>
    obtain ⟨rfl, ⟨c, hc, hd⟩, hs⟩ := h
    cases w with
    | nil => cases hc
    | cons b w =>
      cases hc
      have happ := Strtod.strtod_append (List.cons_ne_nil c w) hs hr
      rw [List.cons_append] at happ ⊢
      rw [getExprToken_cons, if_pos hd, happ]

/-- **A spelled expression is read back**, before anything that ends a number. -/
theorem Expr.tokens {n : Nat} {ts : List Tok} {t : Tree Operand Op} (h : Expr n ts t) :
    ∀ {e r : List UInt8}, Spells ts e → (∀ c ∈ r.head?, Strtod.ends c = true) →
      Bqtool.tokens (e ++ r) = ts ++ Bqtool.tokens r := by
  induction h with
  | operand n a =>
    intro e r he hr
    cases he with
    | cons h hs =>
      cases hs
      rw [List.append_nil]
      exact tokens_cons (token_operand h hr)
  | @paren n ts t h ih =>
    intro e r he hr
    obtain ⟨e1, e2, rfl, h1, h2⟩ := he.split
    cases h1 with
    | @cons _ _ w e1 hw h1 =>
      cases h2 with
      | @cons _ _ w' e2 hw' h2 =>
        cases h2
        obtain rfl : w = [40] := hw
        obtain rfl : w' = [41] := hw'
        have hin := ih (r := 41 :: r) h1 fun c hc => by cases hc; decide
        have hleft : Bqtool.tokens (40 :: (e1 ++ 41 :: r)) = .left :: Bqtool.tokens (e1 ++ 41 :: r) :=
          tokens_cons rfl
        have hright : Bqtool.tokens (41 :: r) = .right :: Bqtool.tokens r := tokens_cons rfl
        rw [hin, hright] at hleft
        simpa using hleft
  | @left n o l r' tl tr ho hn hl hr' ihl ihr | @right n o l r' tl tr ho hn hl hr' ihl ihr =>
    intro e r he hr
    obtain ⟨e1, e2, rfl, h1, h2⟩ := he.split
    cases h2 with
    | @cons _ _ w e2 hw h2 =>
      obtain rfl : w = [o.opChar] := hw
      have h3 := ihl (r := o.opChar :: (e2 ++ r)) h1 fun c hc => by cases hc; exact ends_opChar o
      have h4 : Bqtool.tokens (o.opChar :: (e2 ++ r)) = .operator o :: Bqtool.tokens (e2 ++ r) :=
        tokens_cons (token_operator o _)
      rw [h4, ihr h2 hr] at h3
      simpa using h3

/-- the tokens of a well-formed formula -/
theorem Formula.tokens {e : List UInt8} {t : Tree Operand Op} (h : Formula e t) :
    Expr 0 (Bqtool.tokens e) t := by
  obtain ⟨ts, hts, he⟩ := h
  have hr := hts.tokens (r := []) he fun c hc => nomatch hc
  rw [List.append_nil, show Bqtool.tokens [] = [] from rfl, List.append_nil] at hr
  rwa [hr]

end Bqtool
