import Mathlib.Data.Nat.Digits.Lemmas
import Mathlib.Data.List.DropRight
import Mathlib.Data.List.GetD
import Mathlib.Tactic.Ring

/-!
# Limbs

Numbers as lists of digits in some base, the least significant one first; the number is
`Nat.ofDigits`, the normal form `Nat.digits`.

* `chain`          a loop over the digits that hands on a carry;
* `chain_spec`     what it computes, from what one turn computes;
* `borrows_spec`   the same for a loop that hands on a borrow;
* `trim`           without the zeros at the top: the normal form;
* `compareTop`     two numbers of one length are compared from the top on.
-/

set_option linter.unusedVariables false

namespace Limbs
open Nat (ofDigits digits)

variable {α : Type} {b : Nat}

/-- all digits are below the base -/
def Below (b : Nat) (l : List Nat) : Prop := ∀ x ∈ l, x < b

theorem Below.nil : Below b [] := fun x h => absurd h List.not_mem_nil

theorem Below.cons {x : Nat} {l : List Nat} (hx : x < b) (h : Below b l) : Below b (x :: l) := by
  intro y hy
  rcases List.mem_cons.mp hy with rfl | hy
  · exact hx
  · exact h y hy

theorem Below.tail {x : Nat} {l : List Nat} (h : Below b (x :: l)) : Below b l :=
  fun y hy => h y (List.mem_cons_of_mem x hy)

theorem Below.append {l k : List Nat} (hl : Below b l) (hk : Below b k) : Below b (l ++ k) := by
  intro x hx
  rcases List.mem_append.mp hx with hx | hx
  · exact hl x hx
  · exact hk x hx

theorem Below.take {l : List Nat} (h : Below b l) (n : Nat) : Below b (l.take n) :=
  fun x hx => h x (List.mem_of_mem_take hx)

theorem Below.drop {l : List Nat} (h : Below b l) (n : Nat) : Below b (l.drop n) :=
  fun x hx => h x (List.mem_of_mem_drop hx)

theorem Below.getD {l : List Nat} (h : Below b l) (hb : 0 < b) (i : Nat) : l.getD i 0 < b := by
  rw [List.getD_eq_getElem?_getD]
  cases hi : l[i]? with
  | none => exact hb
  | some x => exact h x (List.mem_of_getElem? hi)

theorem Below.lt {l : List Nat} (hb : 1 < b) (h : Below b l) : ofDigits b l < b ^ l.length :=
  Nat.ofDigits_lt_base_pow_length hb h

theorem ofDigits_take_drop (b : Nat) (l : List Nat) {k : Nat} (h : k ≤ l.length) :
    ofDigits b l = ofDigits b (l.take k) + b ^ k * ofDigits b (l.drop k) := by
  conv_lhs => rw [← List.take_append_drop k l]
  rw [Nat.ofDigits_append, List.length_take, Nat.min_eq_left h]

theorem ofDigits_replicate_append (b k : Nat) (l : List Nat) :
    ofDigits b (List.replicate k 0 ++ l) = b ^ k * ofDigits b l := by
  rw [Nat.ofDigits_append, Nat.ofDigits_replicate_zero, List.length_replicate, Nat.zero_add]

theorem ofDigits_concat (b : Nat) (l : List Nat) (x : Nat) :
    ofDigits b (l ++ [x]) = ofDigits b l + b ^ l.length * x := by
  rw [Nat.ofDigits_append, Nat.ofDigits_singleton]

/-- the upper digits -/
theorem ofDigits_drop {l : List Nat} (hb : 1 < b) (h : Below b l) (k : Nat) :
    ofDigits b (l.drop k) = ofDigits b l / b ^ k := by
  have hp : 0 < b ^ k := Nat.pow_pos (by omega)
  rcases Nat.le_total k l.length with hk | hk
  · have ht := Below.lt hb (h.take k)
    rw [List.length_take_of_le hk] at ht
    rw [ofDigits_take_drop b l hk, Nat.add_mul_div_left _ _ hp, Nat.div_eq_of_lt ht, Nat.zero_add]
  · rw [List.drop_eq_nil_of_le hk, Nat.ofDigits_nil, Nat.div_eq_of_lt]
    exact Nat.lt_of_lt_of_le (Below.lt hb h) (Nat.pow_le_pow_right (by omega) hk)

theorem getD_eq {l : List Nat} (hb : 1 < b) (h : Below b l) (k : Nat) :
    l.getD k 0 = ofDigits b l / b ^ k % b := by
  rw [← ofDigits_drop hb h]
  cases hd : l.drop k with
  | nil =>
    rw [List.getD_eq_default _ _ (List.drop_eq_nil_iff.mp hd), Nat.ofDigits_nil, Nat.zero_mod]
  | cons x t =>
    have hx : l[k]? = some x := by
      rw [← List.head?_drop, hd]
      rfl
    have hlt := h x (List.mem_of_getElem? hx)
    rw [List.getD_eq_getElem?_getD, hx, Nat.ofDigits_cons, Nat.add_mul_mod_self_left, Nat.mod_eq_of_lt hlt]
    rfl

/-! ## carries -/

/-- the digits that come out, and the last carry -/
def chain (f : α → Nat → Nat × Nat) : List α → Nat → List Nat × Nat
  | [], c => ([], c)
  | x :: l, c =>
    let s := f x c
    let t := chain f l s.2
    (s.1 :: t.1, t.2)

theorem chain_length (f : α → Nat → Nat × Nat) (l : List α) :
    ∀ c, (chain f l c).1.length = l.length := by
  induction l with
  | nil =>
    intro c
    rfl
  | cons x l ih =>
    intro c
    exact congrArg (· + 1) (ih _)

/-- one turn adds the carry to the value `g` of its digit -/
structure Turn (b : Nat) (f : α → Nat → Nat × Nat) (g : α → Nat) (C : Nat → Prop) (x : α) (c : Nat) :
    Prop where
  digit : (f x c).1 < b
  sum : (f x c).1 + b * (f x c).2 = g x + c
  carry : C (f x c).2

theorem chain_spec {f : α → Nat → Nat × Nat} {g : α → Nat} {C : Nat → Prop} (l : List α)
    (h : ∀ x ∈ l, ∀ c, C c → Turn b f g C x c) : ∀ c, C c → Below b (chain f l c).1 ∧
      ofDigits b (chain f l c).1 + b ^ l.length * (chain f l c).2 = ofDigits b (l.map g) + c ∧
      C (chain f l c).2 := by
  induction l with
  | nil =>
    intro c hc
    refine ⟨Below.nil, ?_, hc⟩
    show 0 + 1 * c = 0 + c
    omega
  | cons x l ih =>
    intro c hc
    have hx := h x List.mem_cons_self c hc
    obtain ⟨h1, h2, h3⟩ := ih (fun y hy => h y (List.mem_cons_of_mem x hy)) _ hx.carry
    refine ⟨Below.cons hx.digit h1, ?_, h3⟩
    show ofDigits b ((f x c).1 :: (chain f l (f x c).2).1) +
      b ^ (l.length + 1) * (chain f l (f x c).2).2 = ofDigits b (g x :: l.map g) + c
    rw [Nat.ofDigits_cons, Nat.ofDigits_cons]
    have hs := hx.sum
    calc (f x c).1 + b * ofDigits b (chain f l (f x c).2).1 + b ^ (l.length + 1) * (chain f l (f x c).2).2
        = (f x c).1 + b * (ofDigits b (chain f l (f x c).2).1 +
            b ^ l.length * (chain f l (f x c).2).2) := by ring
      _ = (f x c).1 + b * (ofDigits b (l.map g) + (f x c).2) := by rw [h2]
      _ = (f x c).1 + b * (f x c).2 + b * ofDigits b (l.map g) := by ring
      _ = g x + b * ofDigits b (l.map g) + c := by
        rw [hs]
        ring

/-- a turn that takes a borrow off, and the second digit -/
structure Lend (b : Nat) (f : Nat × Nat → Nat → Nat × Nat) (x : Nat × Nat) (c : Nat) : Prop where
  digit : (f x c).1 < b
  diff : (f x c).1 + x.2 + c = x.1 + b * (f x c).2
  borrow : (f x c).2 ≤ 1

theorem Lend.of {f : Nat × Nat → Nat → Nat × Nat} {x : Nat × Nat} {c v k : Nat} (h : f x c = (v, k))
    (hv : v < b) (hd : v + x.2 + c = x.1 + b * k) (hk : k ≤ 1) : Lend b f x c :=
  ⟨by rw [h]; exact hv, by rw [h]; exact hd, by rw [h]; exact hk⟩

theorem borrows_spec {f : Nat × Nat → Nat → Nat × Nat} (l : List (Nat × Nat))
    (h : ∀ x ∈ l, ∀ c, c ≤ 1 → Lend b f x c) : ∀ c, c ≤ 1 → Below b (chain f l c).1 ∧
      ofDigits b (chain f l c).1 + ofDigits b (l.map Prod.snd) + c =
        ofDigits b (l.map Prod.fst) + b ^ l.length * (chain f l c).2 ∧ (chain f l c).2 ≤ 1 := by
  induction l with
  | nil =>
    intro c hc
    refine ⟨Below.nil, ?_, hc⟩
    show 0 + 0 + c = 0 + 1 * c
    omega
  | cons x l ih =>
    intro c hc
    have hx := h x List.mem_cons_self c hc
    obtain ⟨h1, h2, h3⟩ := ih (fun y hy => h y (List.mem_cons_of_mem x hy)) _ hx.borrow
    refine ⟨Below.cons hx.digit h1, ?_, h3⟩
    show ofDigits b ((f x c).1 :: (chain f l (f x c).2).1) + ofDigits b (x.2 :: l.map Prod.snd) + c =
      ofDigits b (x.1 :: l.map Prod.fst) + b ^ (l.length + 1) * (chain f l (f x c).2).2
    rw [Nat.ofDigits_cons, Nat.ofDigits_cons, Nat.ofDigits_cons]
    have hs := hx.diff
    calc (f x c).1 + b * ofDigits b (chain f l (f x c).2).1 + (x.2 + b * ofDigits b (l.map Prod.snd)) + c
        = (f x c).1 + x.2 + c + b * (ofDigits b (chain f l (f x c).2).1 + ofDigits b (l.map Prod.snd)) := by
          ring
      _ = x.1 + b * (ofDigits b (chain f l (f x c).2).1 + ofDigits b (l.map Prod.snd) + (f x c).2) := by
        rw [hs]
        ring
      _ = x.1 + b * ofDigits b (l.map Prod.fst) + b ^ (l.length + 1) * (chain f l (f x c).2).2 := by
        rw [h2]
        ring

/-! ## the normal form -/

/-- without the zeros at the top -/
def trim (l : List Nat) : List Nat := l.rdropWhile (· = 0)

theorem trim_append_zeros (l : List Nat) : ∃ k, l = trim l ++ List.replicate k 0 := by
  refine ⟨(l.rtakeWhile (· = 0)).length, ?_⟩
  have h : List.replicate (l.rtakeWhile (· = 0)).length 0 = l.rtakeWhile (· = 0) := by
    refine (List.eq_replicate_iff.mpr ⟨rfl, fun x hx => ?_⟩).symm
    have := List.mem_rtakeWhile_imp hx
    exact of_decide_eq_true this
  unfold trim
  rw [h]
  exact List.rdropWhile_append_rtakeWhile.symm

theorem ofDigits_trim (b : Nat) (l : List Nat) : ofDigits b (trim l) = ofDigits b l := by
  obtain ⟨k, hk⟩ := trim_append_zeros l
  conv_rhs => rw [hk]
  exact (Nat.ofDigits_append_replicate_zero _).symm

theorem trim_length_le (l : List Nat) : (trim l).length ≤ l.length :=
  (List.rdropWhile_prefix _ l).length_le

theorem Below.trim {l : List Nat} (h : Below b l) : Below b (trim l) :=
  fun x hx => h x ((List.rdropWhile_prefix _ l).subset hx)

theorem trim_eq_take (l : List Nat) : trim l = l.take (trim l).length :=
  List.prefix_iff_eq_take.mp (List.rdropWhile_prefix _ l)

theorem trim_eq_digits {l : List Nat} (hb : 1 < b) (h : Below b l) : trim l = digits b (ofDigits b l) := by
  have := Nat.digits_ofDigits b hb (trim l) h.trim (fun hne => by
    have := List.rdropWhile_last_not _ l hne
    exact of_decide_eq_false (Bool.eq_false_iff.mpr this))
  rw [← this, ofDigits_trim]

theorem trim_eq_self {l : List Nat} (h : ∀ hl : l ≠ [], l.getLast hl ≠ 0) : trim l = l :=
  List.rdropWhile_eq_self_iff.mpr fun hl hz => h hl (of_decide_eq_true hz)

/-- a list without a zero at the top is a normal form -/
theorem eq_digits {l : List Nat} (hb : 1 < b) (h : Below b l) (ht : ∀ hl : l ≠ [], l.getLast hl ≠ 0) :
    l = digits b (ofDigits b l) :=
  (trim_eq_self ht).symm.trans (trim_eq_digits hb h)

/-- a large number has no zero at the top -/
theorem top_of_le {l : List Nat} (hb : 1 < b) (h : Below b l) (hle : b ^ (l.length - 1) ≤ ofDigits b l) :
    ∀ hl : l ≠ [], l.getLast hl ≠ 0 := by
  intro hl hz
  have hd := List.dropLast_append_getLast hl
  rw [hz] at hd
  have hlen : l.dropLast.length = l.length - 1 := List.length_dropLast
  have hlt := Below.lt hb (l := l.dropLast) fun x hx => h x (List.dropLast_subset l hx)
  rw [hlen] at hlt
  rw [← hd, ofDigits_concat, Nat.mul_zero, Nat.add_zero, hd] at hle
  omega

/-- and a normal form is large -/
theorem le_digits (hb : 1 < b) {n : Nat} (h0 : n ≠ 0) : b ^ ((digits b n).length - 1) ≤ n := by
  have hne : digits b n ≠ [] := Nat.digits_ne_nil_iff_ne_zero.mpr h0
  have hp := List.length_pos_iff.mpr hne
  by_contra hc
  have := (Nat.digits_length_le_iff hb n (k := (digits b n).length - 1)).mpr (by omega)
  omega

/-- how many digits a number has -/
theorem digits_length_eq (hb : 1 < b) {n k : Nat} (h1 : b ^ k ≤ n) (h2 : n < b ^ (k + 1)) :
    (digits b n).length = k + 1 := by
  have h3 := (Nat.digits_length_le_iff hb n).mpr h2
  have h4 := (Nat.lt_digits_length_iff hb n).mpr h1
  omega

theorem digits_length_mono (b : Nat) {m n : Nat} (h : m ≤ n) : (digits b m).length ≤ (digits b n).length :=
  Nat.le_length_digits_le b m n h

/-! ## comparison -/

/-- the digits from the top on -/
def compareTop : List Nat → List Nat → Ordering
  | x :: l, y :: k => if x ≠ y then (if x > y then .gt else .lt) else compareTop l k
  | _, _ => .eq

theorem compareTop_reverse (hb : 1 < b) (l : List Nat) : ∀ k : List Nat, l.length = k.length →
    Below b l → Below b k → compareTop l.reverse k.reverse = compare (ofDigits b l) (ofDigits b k) := by
  induction l using List.reverseRecOn with
  | nil =>
    intro k hl _ _
    rw [List.length_eq_zero_iff.mp hl.symm]
    exact (Nat.compare_eq_eq.mpr rfl).symm
  | append_singleton l x ih =>
    intro k hl hbl hbk
    induction k using List.reverseRecOn with
    | nil =>
      rw [List.length_append] at hl
      exact absurd hl (Nat.succ_ne_zero _)
    | append_singleton k y _ =>
      rw [List.length_append, List.length_append] at hl
      have hl : l.length = k.length := Nat.add_right_cancel hl
      have h1 := Below.lt hb fun z hz => hbl z (List.mem_append_left _ hz)
      have h2 := Below.lt hb fun z hz => hbk z (List.mem_append_left _ hz)
      have h3 := ih k hl (fun z hz => hbl z (List.mem_append_left _ hz))
        fun z hz => hbk z (List.mem_append_left _ hz)
      rw [List.reverse_append, List.reverse_append, ofDigits_concat, ofDigits_concat, ← hl]
      rw [← hl] at h2
      show (if x ≠ y then (if x > y then Ordering.gt else .lt) else compareTop l.reverse k.reverse) = _
      generalize ofDigits b l = m at h1 h3 ⊢
      generalize ofDigits b k = n at h2 h3 ⊢
      generalize b ^ l.length = p at h1 h2 ⊢
      -- the upper digit decides: what is below it is less than its unit
      have hlt {x y m n : Nat} (hm : m < p) (h : x < y) : m + p * x < n + p * y := by
        have h4 := Nat.mul_le_mul_left p (Nat.succ_le_of_lt h)
        rw [Nat.mul_succ] at h4
        omega
      by_cases hxy : x = y
      · rw [if_neg (by omega), h3, hxy]
        rcases Nat.lt_trichotomy m n with h | h | h
        · rw [Nat.compare_eq_lt.mpr h, Nat.compare_eq_lt.mpr (by omega)]
        · rw [h, Nat.compare_eq_eq.mpr rfl, Nat.compare_eq_eq.mpr rfl]
        · rw [Nat.compare_eq_gt.mpr h, Nat.compare_eq_gt.mpr (by omega)]
      · rw [if_pos hxy]
        rcases Nat.lt_or_gt_of_ne hxy with h | h
        · rw [if_neg (by omega), Nat.compare_eq_lt.mpr (hlt h1 h)]
        · rw [if_pos h, Nat.compare_eq_gt.mpr (hlt h2 h)]

end Limbs
