import Firmware.Lib.Decimal

/-!
# Numbers with a point

What `strtod` takes of a text that begins with a digit.

* `mantissa`, `exponent`, `strtod` the number, and the rest of the text;
* `strtod_join`     the two make up the text;
* `strtod_taken`    something is taken;
* `strtod_append`   a text that is a number is one before anything that cannot go on with it.
-/

namespace Strtod
open Scanf CStr

/-- digits, perhaps with a point between or behind them -/
def mantissa (digit : UInt8 → Bool) (l : List UInt8) : Option (List UInt8 × List UInt8) :=
  let a := l.takeWhile digit
  match l.dropWhile digit with
  | 46 :: r =>
    if a = [] ∧ r.takeWhile digit = [] then none
    else some (a ++ 46 :: r.takeWhile digit, r.dropWhile digit)
  | r => if a = [] then none else some (a, r)

def signOf : List UInt8 → List UInt8 × List UInt8
  | 43 :: r => ([43], r)
  | 45 :: r => ([45], r)
  | r => ([], r)

/-- the exponent, if there is a digit in it -/
def exponent (mark : UInt8 → Bool) : List UInt8 → List UInt8 × List UInt8
  | [] => ([], [])
  | c :: r =>
    let (s, r') := signOf r
    if mark c ∧ r'.takeWhile isdigit ≠ [] then
      (c :: s ++ r'.takeWhile isdigit, r'.dropWhile isdigit)
    else ([], c :: r)

def number (digit mark : UInt8 → Bool) (l : List UInt8) : Option (List UInt8 × List UInt8) :=
  (mantissa digit l).map fun (m, r) => (m ++ (exponent mark r).1, (exponent mark r).2)

def markE (c : UInt8) : Bool := c = 101 ∨ c = 69

def markP (c : UInt8) : Bool := c = 112 ∨ c = 80

def markX (c : UInt8) : Bool := c = 120 ∨ c = 88

def decimal (l : List UInt8) : List UInt8 × List UInt8 := (number isdigit markE l).getD ([], l)

/-- the text of the number, and what is behind it -/
def strtod : List UInt8 → List UInt8 × List UInt8
  | 48 :: c :: r =>
    if markX c then
      match number isxdigit markP r with
      | some (t, r') => (48 :: c :: t, r')
      | none => decimal (48 :: c :: r)
    else decimal (48 :: c :: r)
  | l => decimal l

/-! ## The text is taken apart -/

theorem mantissa_join {digit : UInt8 → Bool} {l m r : List UInt8} (h : mantissa digit l = some (m, r)) :
    l = m ++ r ∧ m ≠ [] := by
  have hl : l.takeWhile digit ++ l.dropWhile digit = l := List.takeWhile_append_dropWhile
  unfold mantissa at h
  dsimp only at h
  split at h
  · next r' hr =>
    split at h
    · cases h
    · obtain ⟨rfl, rfl⟩ := Prod.mk.inj (Option.some.inj h)
      refine ⟨?_, by simp⟩
      rw [List.append_assoc, List.cons_append, List.takeWhile_append_dropWhile, ← hr, hl]
  · split at h
    · cases h
    · next hne =>
      obtain ⟨rfl, rfl⟩ := Prod.mk.inj (Option.some.inj h)
      exact ⟨hl.symm, hne⟩

theorem signOf_join (r : List UInt8) : (signOf r).1 ++ (signOf r).2 = r := by
  unfold signOf
  split <;> rfl

theorem exponent_join (mark : UInt8 → Bool) (l : List UInt8) :
    (exponent mark l).1 ++ (exponent mark l).2 = l := by
  cases l with
  | nil => rfl
  | cons c r =>
    have hs := signOf_join r
    unfold exponent
    dsimp only
    split
    · show c :: (_ ++ _) ++ _ = _
      rw [List.cons_append, List.append_assoc, List.takeWhile_append_dropWhile, hs]
    · rfl

theorem number_join {digit mark : UInt8 → Bool} {l t r : List UInt8}
    (h : number digit mark l = some (t, r)) : l = t ++ r ∧ t ≠ [] := by
  obtain ⟨⟨m, r'⟩, hm, he⟩ := Option.map_eq_some_iff.mp h
  obtain ⟨rfl, rfl⟩ := Prod.mk.inj he
  obtain ⟨hl, hne⟩ := mantissa_join hm
  refine ⟨?_, by simp [hne]⟩
  rw [List.append_assoc, exponent_join, hl]

theorem decimal_join (l : List UInt8) : (decimal l).1 ++ (decimal l).2 = l := by
  unfold decimal
  cases h : number isdigit markE l with
  | none => rfl
  | some p => exact (number_join h).1.symm

theorem strtod_join (l : List UInt8) : (strtod l).1 ++ (strtod l).2 = l := by
  unfold strtod
  split
  · split
    · split
      · next t r' h =>
        show 48 :: _ :: (t ++ r') = _
        rw [← (number_join h).1]
      · exact decimal_join _
    · exact decimal_join _
  · exact decimal_join _

theorem decimal_taken {c : UInt8} (h : isdigit c = true) (l : List UInt8) :
    (decimal (c :: l)).1 ≠ [] := by
  unfold decimal
  cases hn : number isdigit markE (c :: l) with
  | some p => exact (number_join hn).2
  | none =>
    exfalso
    have hm := Option.map_eq_none_iff.mp hn
    unfold mantissa at hm
    rw [List.takeWhile_cons_of_pos h] at hm
    dsimp only at hm
    split at hm <;> simp at hm

theorem strtod_taken {c : UInt8} (h : isdigit c = true) (l : List UInt8) : (strtod (c :: l)).1 ≠ [] := by
  unfold strtod
  split
  · next c' r heq =>
    obtain ⟨rfl, rfl⟩ := List.cons.inj heq
    split
    · split
      · simp
      · exact decimal_taken h _
    · exact decimal_taken h _
  · exact decimal_taken h _

/-! ## A number before something else -/

/-- `c` cannot go on with a number -/
def ends (c : UInt8) : Bool := !(isxdigit c || c = 46 || markE c || markP c || markX c)

theorem takeWhile_append {f : UInt8 → Bool} (l : List UInt8) {r : List UInt8}
    (hr : ∀ c ∈ r.head?, f c = false) :
    (l ++ r).takeWhile f = l.takeWhile f ∧ (l ++ r).dropWhile f = l.dropWhile f ++ r := by
  induction l with
  | nil =>
    cases r with
    | nil => exact ⟨rfl, rfl⟩
    | cons c r =>
      have hc := hr c rfl
      rw [List.nil_append, List.takeWhile_cons_of_neg (by rw [hc]; decide),
        List.dropWhile_cons_of_neg (by rw [hc]; decide)]
      exact ⟨rfl, rfl⟩
  | cons c l ih =>
    rw [List.cons_append]
    cases hc : f c with
    | true =>
      rw [List.takeWhile_cons_of_pos hc, List.dropWhile_cons_of_pos hc, List.takeWhile_cons_of_pos hc,
        List.dropWhile_cons_of_pos hc, ih.1, ih.2]
      exact ⟨rfl, rfl⟩
    | false =>
      rw [List.takeWhile_cons_of_neg (by rw [hc]; decide), List.dropWhile_cons_of_neg (by rw [hc]; decide),
        List.takeWhile_cons_of_neg (by rw [hc]; decide), List.dropWhile_cons_of_neg (by rw [hc]; decide)]
      exact ⟨rfl, rfl⟩

theorem mantissa_append {digit : UInt8 → Bool} {l m s r : List UInt8}
    (h : mantissa digit l = some (m, s)) (hr : ∀ c ∈ r.head?, digit c = false ∧ c ≠ 46) :
    mantissa digit (l ++ r) = some (m, s ++ r) := by
  obtain ⟨h1, h2⟩ := takeWhile_append l fun c hc => (hr c hc).1
  unfold mantissa at h ⊢
  dsimp only at h ⊢
  rw [h1, h2]
  split at h
  · next r' hr' =>
    obtain ⟨h3, h4⟩ := takeWhile_append r' fun c hc => (hr c hc).1
    rw [hr', List.cons_append]
    show (if _ ∧ (r' ++ r).takeWhile digit = [] then none else some (_ ++ 46 :: (r' ++ r).takeWhile digit,
      (r' ++ r).dropWhile digit)) = _
    rw [h3, h4]
    split at h
    · cases h
    · next hne =>
      rw [if_neg hne]
      obtain ⟨rfl, rfl⟩ := Prod.mk.inj (Option.some.inj h)
      rfl
  · next hno =>
    split at h
    · cases h
    · next hne =>
      obtain ⟨rfl, rfl⟩ := Prod.mk.inj (Option.some.inj h)
      split
      · next r' hr' =>
        exfalso
        cases hd : l.dropWhile digit with
        | nil =>
          rw [hd, List.nil_append] at hr'
          exact (hr 46 (by rw [hr']; rfl)).2 rfl
        | cons c d =>
          rw [hd, List.cons_append] at hr'
          exact hno d (by rw [hd, (List.cons.inj hr').1])
      · rw [if_neg hne]

theorem signOf_append {l : List UInt8} (h : l ≠ []) (r : List UInt8) :
    signOf (l ++ r) = ((signOf l).1, (signOf l).2 ++ r) := by
  cases l with
  | nil => exact absurd rfl h
  | cons c l =>
    by_cases h1 : c = 43
    · subst h1
      rfl
    · by_cases h2 : c = 45
      · subst h2
        rfl
      · simp [signOf, h1, h2]

theorem exponent_append {mark : UInt8 → Bool} {l r : List UInt8} (h : exponent mark l = (l, []))
    (hr : ∀ c ∈ r.head?, mark c = false ∧ isdigit c = false) : exponent mark (l ++ r) = (l, r) := by
  cases l with
  | nil =>
    cases r with
    | nil => rfl
    | cons c r =>
      have hc := (hr c rfl).1
      show exponent mark (c :: r) = _
      unfold exponent
      dsimp only
      rw [if_neg (by rw [hc]; exact fun e => nomatch e.1)]
  | cons c l =>
    rw [List.cons_append]
    unfold exponent at h ⊢
    dsimp only at h ⊢
    split at h
    · next hc =>
      have hne : l ≠ [] := by
        rintro rfl
        exact hc.2 rfl
      obtain ⟨h1, h2⟩ := takeWhile_append (signOf l).2 fun c hc => (hr c hc).2
      obtain ⟨h3, h4⟩ := Prod.mk.inj h
      rw [signOf_append hne, h1, h2, if_pos hc, h3, h4]
      rfl
    · cases (Prod.mk.inj h).1

/-- all of a text is a number -/
theorem number_append {digit mark : UInt8 → Bool} {l r : List UInt8}
    (h : number digit mark l = some (l, []))
    (hr : ∀ c ∈ r.head?, digit c = false ∧ c ≠ 46 ∧ mark c = false ∧ isdigit c = false) :
    number digit mark (l ++ r) = some (l, r) := by
  obtain ⟨⟨m, s⟩, hm, he⟩ := Option.map_eq_some_iff.mp h
  obtain ⟨h1, h2⟩ := Prod.mk.inj he
  have hs : (exponent mark s).1 = s := by
    have hj := exponent_join mark s
    rwa [h2, List.append_nil] at hj
  have hes : exponent mark s = (s, []) := Prod.ext hs h2
  have hms : m ++ s = l := by rwa [hs] at h1
  unfold number
  rw [mantissa_append hm fun c hc => ⟨(hr c hc).1, (hr c hc).2.1⟩, Option.map_some]
  dsimp only
  rw [exponent_append hes fun c hc => (hr c hc).2.2, hms]

theorem ends_spec {c : UInt8} (h : ends c = true) : isxdigit c = false ∧ isdigit c = false ∧ c ≠ 46
    ∧ markE c = false ∧ markP c = false ∧ markX c = false := by
  have hd : isdigit c = true → isxdigit c = true := by
    intro hd
    obtain ⟨d, hd, rfl⟩ := of_isdigit hd
    exact isxdigit_lowerDigit (by omega)
  unfold ends at h
  cases h1 : isxdigit c <;> cases h2 : isdigit c <;> cases h3 : markE c <;> cases h4 : markP c <;>
    cases h5 : markX c <;> simp_all

theorem decimal_append {l r : List UInt8} (hne : l ≠ []) (h : decimal l = (l, []))
    (hr : ∀ c ∈ r.head?, ends c = true) : decimal (l ++ r) = (l, r) := by
  unfold decimal at h ⊢
  cases hn : number isdigit markE l with
  | none =>
    rw [hn] at h
    exact absurd (Prod.mk.inj h).1.symm hne
  | some p =>
    rw [hn, Option.getD_some] at h
    rw [h] at hn
    rw [number_append hn fun c hc => ?_, Option.getD_some]
    obtain ⟨_, h2, h3, h4, _⟩ := ends_spec (hr c hc)
    exact ⟨h2, h3, h4, h2⟩

/-- `0x` with nothing hexadecimal behind it is a zero -/
theorem decimal_zero {c : UInt8} (h : markX c = true) (l : List UInt8) :
    decimal (48 :: c :: l) = ([48], c :: l) := by
  have hc : c = 120 ∨ c = 88 := of_decide_eq_true h
  rcases hc with rfl | rfl <;> rfl

/-- **A number before something else** is taken, and nothing more. -/
theorem strtod_append {l r : List UInt8} (hne : l ≠ []) (h : strtod l = (l, []))
    (hr : ∀ c ∈ r.head?, ends c = true) : strtod (l ++ r) = (l, r) := by
  unfold strtod at h
  split at h
  · next c s =>
    show (if markX c then match number isxdigit markP (s ++ r) with
      | some (t, r') => (48 :: c :: t, r')
      | none => decimal (48 :: c :: (s ++ r)) else decimal (48 :: c :: (s ++ r))) = _
    split at h
    · next hx =>
      rw [if_pos hx]
      split at h
      · next t r' hn =>
        obtain ⟨h1, rfl⟩ := Prod.mk.inj h
        obtain rfl : t = s := (List.cons.inj (List.cons.inj h1).2).2
        rw [number_append hn fun c hc => ?_]
        obtain ⟨h2, h3, h4, h5, h6, h7⟩ := ends_spec (hr c hc)
        exact ⟨h2, h4, h6, h3⟩
      · rw [decimal_zero hx] at h
        cases (Prod.mk.inj h).2
    · next hx =>
      rw [if_neg hx]
      exact decimal_append hne h hr
  · next hno =>
    have hd := decimal_append hne h hr
    unfold strtod
    split
    · next c s heq =>
      have hx : ¬ markX c = true := by
        cases l with
        | nil => exact absurd rfl hne
        | cons b l =>
          obtain ⟨rfl, hb⟩ := List.cons.inj heq
          cases l with
          | nil =>
            have := (ends_spec (hr c (by rw [show r = c :: s from hb]; rfl))).2.2.2.2.2
            rw [this]
            decide
          | cons d l => exact absurd rfl (hno d l)
      rw [if_neg hx, ← heq]
      exact hd
    · exact hd

end Strtod
