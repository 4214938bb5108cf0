import Mathlib.Data.List.Nodup
import Mathlib.Data.List.Perm.Subperm
import Mathlib.Logic.Function.Basic

/-!
# Linked lists in memory

Cells with a `next` pointer, and several lists whose heads are the `root`s.  A pointer is `none` for
NULL, a `Link` is a pointer to a pointer: the head of a list or the `next` field of a cell.  Outside
the library functions `none` is an access through a wild or freed pointer.

* `Path m p l`       from the pointer `p` on the cells are those of `l`, each with its address;
* `Owns s own`       every list of the store is a path, and no cell is in two of them;
* `walk`             the loop of C code that looks for a cell and keeps the link that leads to it;
* `Owns.unlink`, `Owns.push`, `Owns.write`, `Owns.alloc`, `Owns.freeRoot`   what the operations do to
                     the lists.
-/

set_option linter.unusedSectionVars false
set_option linter.unusedVariables false

namespace Links

variable {ρ α : Type} [DecidableEq ρ]

abbrev Ptr := Option Nat

structure Cell (α : Type) where
  data : α
  next : Ptr

/-- memory: the cell at an address, if it is allocated -/
abbrev Cells (α : Type) := List (Option (Cell α))

def Cells.cell (m : Cells α) (a : Nat) : Option (Cell α) := m[a]?.join

structure Store (ρ α : Type) where
  cells : Cells α
  root : ρ → Ptr

inductive Link (ρ : Type) where
  | root (r : ρ)
  | next (a : Nat)

/-- `*link` -/
def Store.load (s : Store ρ α) : Link ρ → Option Ptr
  | .root r => some (s.root r)
  | .next a => (s.cells.cell a).map Cell.next

/-- overwrite the cell at `a` -/
def Store.setCell (s : Store ρ α) (a : Nat) (c : Cell α) : Store ρ α :=
  { s with cells := s.cells.set a (some c) }

/-- `*link = p;` -/
def Store.put (s : Store ρ α) (p : Ptr) : Link ρ → Option (Store ρ α)
  | .root r => some { s with root := Function.update s.root r p }
  | .next a => (s.cells.cell a).map fun c => s.setCell a ⟨c.data, p⟩

/-- a fresh cell -/
def Store.alloc (s : Store ρ α) (c : Cell α) : Nat × Store ρ α :=
  (s.cells.length, { s with cells := s.cells ++ [some c] })

/-- `for (prev = link, t = *prev; t && !stop(t); prev = &t->next, t = *prev);` -/
def walk (stop : α → Bool) (s : Store ρ α) : Nat → Link ρ → Option (Link ρ × Ptr)
  | 0, _ => none
  | fuel + 1, prev => do
    match ← s.load prev with
    | none => some (prev, none)
    | some a =>
      let c ← s.cells.cell a
      if stop c.data then some (prev, some a) else walk stop s fuel (.next a)

/-- `for (t = p; t; t = next) { next = t->next; free(t); }` -/
def freeAll : Nat → Ptr → Cells α → Option (Cells α)
  | 0, _, _ => none
  | _ + 1, none, m => some m
  | fuel + 1, some a, m => do
    let c ← m.cell a
    freeAll fuel c.next (m.set a none)

/-- free the list of a root -/
def Store.freeRoot (s : Store ρ α) (r : ρ) : Option (Store ρ α) :=
  (freeAll (s.cells.length + 1) (s.root r) s.cells).map fun m =>
    ⟨m, Function.update s.root r none⟩

/-! ## cells -/

theorem Cells.cell_set_self {m : Cells α} {a : Nat} {c d : Cell α} (h : m.cell a = some c) :
    Cells.cell (m.set a (some d)) a = some d := by
  have hlt : a < m.length := by
    by_contra hc
    unfold Cells.cell at h
    rw [List.getElem?_eq_none (by omega)] at h
    exact absurd h (by simp)
  unfold Cells.cell
  rw [List.getElem?_set_self hlt]
  rfl

theorem Cells.cell_set_of_ne (m : Cells α) {a b : Nat} (c : Option (Cell α)) (h : b ≠ a) :
    Cells.cell (m.set a c) b = m.cell b := by
  unfold Cells.cell
  rw [List.getElem?_set_ne (fun e => h e.symm)]

theorem Cells.lt_of_cell {m : Cells α} {a : Nat} {c : Cell α} (h : m.cell a = some c) :
    a < m.length := by
  by_contra hc
  unfold Cells.cell at h
  rw [List.getElem?_eq_none (by omega)] at h
  exact absurd h (by simp)

theorem Cells.cell_append {m : Cells α} {a : Nat} (c : Cell α) (h : a < m.length) :
    Cells.cell (m ++ [some c]) a = m.cell a := by
  unfold Cells.cell
  rw [List.getElem?_append_left h]

theorem Cells.cell_append_self (m : Cells α) (c : Cell α) :
    Cells.cell (m ++ [some c]) m.length = some c := by
  unfold Cells.cell
  rw [List.getElem?_append_right (Nat.le_refl _), Nat.sub_self]
  rfl

theorem Store.setCell_self {s : Store ρ α} {a : Nat} {c : Cell α} (h : s.cells.cell a = some c) :
    s.setCell a c = s := by
  obtain ⟨m, root⟩ := s
  have hg : m[a]? = some (some c) := by
    have h' : m[a]?.join = some c := h
    cases hm : m[a]? with
    | none =>
      rw [hm] at h'
      exact absurd h' (by simp)
    | some o =>
      rw [hm] at h'
      exact congrArg some h'
  obtain ⟨hlt, hx⟩ := List.getElem?_eq_some_iff.mp hg
  unfold setCell
  rw [← hx]
  simp only [List.set_getElem_self]

/-! ## paths -/

/-- the cells from `p` on, with their addresses -/
def Path (m : Cells α) : Ptr → List (Nat × α) → Prop
  | p, [] => p = none
  | p, (a, x) :: l => p = some a ∧ ∃ q, m.cell a = some ⟨x, q⟩ ∧ Path m q l

/-- the addresses of a list -/
abbrev addrs (l : List (Nat × α)) : List Nat := l.map Prod.fst

/-- the content of a list -/
abbrev vals (l : List (Nat × α)) : List α := l.map Prod.snd

/-- a path only depends on its cells -/
theorem Path.frame {m m' : Cells α} {p : Ptr} {l : List (Nat × α)} (h : Path m p l)
    (hm : ∀ a ∈ addrs l, m'.cell a = m.cell a) : Path m' p l := by
  induction l generalizing p with
  | nil => exact h
  | cons e l ih =>
    obtain ⟨a, x⟩ := e
    obtain ⟨hp, q, hc, hl⟩ := h
    refine ⟨hp, q, ?_, ih hl fun b hb => hm b (List.mem_cons_of_mem a hb)⟩
    rw [hm a List.mem_cons_self, hc]

theorem Path.lt {m : Cells α} {p : Ptr} {l : List (Nat × α)} (h : Path m p l) :
    ∀ a ∈ addrs l, a < m.length := by
  induction l generalizing p with
  | nil => exact fun a ha => absurd ha (by simp)
  | cons e l ih =>
    obtain ⟨b, x⟩ := e
    obtain ⟨-, q, hc, hl⟩ := h
    intro a ha
    rcases List.mem_cons.mp ha with rfl | ha
    · exact Cells.lt_of_cell hc
    · exact ih hl a ha

theorem Path.unique {m : Cells α} {p : Ptr} {l l' : List (Nat × α)} (h : Path m p l)
    (h' : Path m p l') : l = l' := by
  induction l generalizing p l' with
  | nil =>
    obtain rfl : p = none := h
    cases l' with
    | nil => rfl
    | cons e l' => exact absurd h'.1 (by simp)
  | cons e l ih =>
    obtain ⟨a, x⟩ := e
    obtain ⟨rfl, q, hc, hl⟩ := h
    cases l' with
    | nil => exact absurd (show some a = none from h') (by simp)
    | cons e' l' =>
      obtain ⟨a', x'⟩ := e'
      obtain ⟨ha, q', hc', hl'⟩ := h'
      obtain rfl := Option.some.inj ha
      rw [hc] at hc'
      obtain ⟨rfl, rfl⟩ := Cell.mk.inj (Option.some.inj hc')
      rw [ih hl hl']

/-- a list is no longer than the memory -/
theorem Path.length_le {m : Cells α} {p : Ptr} {l : List (Nat × α)} (h : Path m p l)
    (hn : (addrs l).Nodup) : l.length ≤ m.length := by
  have hs : (addrs l).Subperm (List.range m.length) :=
    hn.subperm fun a ha => List.mem_range.mpr (h.lt a ha)
  have hle := hs.length_le
  rwa [List.length_map, List.length_range] at hle

/-- the link that leads behind the cells `l` -/
def behind (prev : Link ρ) : List (Nat × α) → Link ρ
  | [] => prev
  | (a, _) :: l => behind (.next a) l

/-- the cell at `a`, behind `l` -/
theorem Path.cell {m : Cells α} {p : Ptr} {l r : List (Nat × α)} {a : Nat} {x : α}
    (h : Path m p (l ++ (a, x) :: r)) : ∃ q, m.cell a = some ⟨x, q⟩ ∧ Path m q r := by
  induction l generalizing p with
  | nil => exact h.2
  | cons e l ih =>
    obtain ⟨-, q, -, hl⟩ := h
    exact ih hl

theorem load_next {s : Store ρ α} {a : Nat} {x : α} {q : Ptr} (h : s.cells.cell a = some ⟨x, q⟩) :
    s.load (.next a) = some q := by
  show (s.cells.cell a).map Cell.next = _
  rw [h]
  rfl

/-- a cell without the property is passed over -/
theorem walk_next {stop : α → Bool} {s : Store ρ α} {a : Nat} {x : α} {q : Ptr} {prev : Link ρ}
    {fuel : Nat} (hp : s.load prev = some (some a)) (hc : s.cells.cell a = some ⟨x, q⟩)
    (hx : stop x = false) : walk stop s (fuel + 1) prev = walk stop s fuel (.next a) := by
  simp only [walk, hp, hc, Option.bind_eq_bind, Option.bind_some, hx, Bool.false_eq_true, if_false]

/-- **The search**: the first cell with the property, and the link that leads to it. -/
theorem walk_found {stop : α → Bool} {s : Store ρ α} {l r : List (Nat × α)} {a : Nat} {x : α} {p : Ptr}
    {prev : Link ρ} {fuel : Nat} (hp : s.load prev = some p) (h : Path s.cells p (l ++ (a, x) :: r))
    (hl : ∀ y ∈ vals l, stop y = false) (hx : stop x = true) (hf : l.length < fuel) :
    walk stop s fuel prev = some (behind prev l, some a) := by
  induction l generalizing p prev fuel with
  | nil =>
    obtain ⟨fuel, rfl⟩ : ∃ k, fuel = k + 1 := ⟨fuel - 1, by simp at hf; omega⟩
    obtain ⟨rfl, q, hc, -⟩ := h
    simp only [walk, hp, hc, Option.bind_eq_bind, Option.bind_some, hx, if_true, behind]
  | cons e l ih =>
    obtain ⟨b, y⟩ := e
    rw [List.length_cons] at hf
    obtain ⟨fuel, rfl⟩ : ∃ k, fuel = k + 1 := ⟨fuel - 1, by omega⟩
    obtain ⟨rfl, q, hc, hr⟩ := h
    rw [walk_next hp hc (hl y List.mem_cons_self)]
    exact ih (load_next hc) hr (fun z hz => hl z (List.mem_cons_of_mem y hz)) (by omega)

theorem walk_missing {stop : α → Bool} {s : Store ρ α} {l : List (Nat × α)} {p : Ptr}
    {prev : Link ρ} {fuel : Nat} (hp : s.load prev = some p) (h : Path s.cells p l)
    (hl : ∀ y ∈ vals l, stop y = false) (hf : l.length < fuel) :
    walk stop s fuel prev = some (behind prev l, none) := by
  induction l generalizing p prev fuel with
  | nil =>
    obtain ⟨fuel, rfl⟩ : ∃ k, fuel = k + 1 := ⟨fuel - 1, by simp at hf; omega⟩
    have hnil : p = none := h
    simp only [walk, hp, hnil, Option.bind_eq_bind, Option.bind_some, behind]
  | cons e l ih =>
    obtain ⟨b, y⟩ := e
    rw [List.length_cons] at hf
    obtain ⟨fuel, rfl⟩ : ∃ k, fuel = k + 1 := ⟨fuel - 1, by omega⟩
    obtain ⟨rfl, q, hc, hr⟩ := h
    rw [walk_next hp hc (hl y List.mem_cons_self)]
    exact ih (load_next hc) hr (fun z hz => hl z (List.mem_cons_of_mem y hz)) (by omega)

/-! ## changing the memory -/

/-- the cell behind `l` is linked anew: what followed is cut off -/
theorem Path.redirect {m : Cells α} {p q : Ptr} {l r r' : List (Nat × α)} {b : Nat} {y : α}
    (h : Path m p (l ++ (b, y) :: r)) (hn : (addrs (l ++ (b, y) :: r)).Nodup)
    (hq : Path (m.set b (some ⟨y, q⟩)) q r') : Path (m.set b (some ⟨y, q⟩)) p (l ++ (b, y) :: r') := by
  induction l generalizing p with
  | nil =>
    obtain ⟨hp, q', hc, -⟩ := h
    exact ⟨hp, q, Cells.cell_set_self hc, hq⟩
  | cons e l ih =>
    obtain ⟨a, x⟩ := e
    obtain ⟨hp, q', hc, hl⟩ := h
    have hn' := List.nodup_cons.mp (show (a :: addrs (l ++ (b, y) :: r)).Nodup from hn)
    have hab : a ≠ b := by
      rintro rfl
      exact hn'.1 (by simp)
    refine ⟨hp, q', ?_, ih hl hn'.2⟩
    rw [Cells.cell_set_of_ne m _ hab, hc]

/-- the data of one cell change -/
theorem Path.write {m : Cells α} {p q : Ptr} {l r : List (Nat × α)} {a : Nat} {x y : α}
    (h : Path m p (l ++ (a, x) :: r)) (hn : (addrs (l ++ (a, x) :: r)).Nodup)
    (hc : m.cell a = some ⟨x, q⟩) : Path (m.set a (some ⟨y, q⟩)) p (l ++ (a, y) :: r) := by
  induction l generalizing p with
  | nil =>
    obtain ⟨hp, q', hc', hr⟩ := h
    obtain rfl : q = q' := by
      rw [hc] at hc'
      exact (Cell.mk.inj (Option.some.inj hc')).2
    refine ⟨hp, q, Cells.cell_set_self hc, hr.frame fun b hb => Cells.cell_set_of_ne m _ ?_⟩
    rintro rfl
    exact (List.nodup_cons.mp hn).1 hb
  | cons e l ih =>
    obtain ⟨b, z⟩ := e
    obtain ⟨hp, q', hc', hl⟩ := h
    have hn' := List.nodup_cons.mp (show (b :: addrs (l ++ (a, x) :: r)).Nodup from hn)
    have hba : b ≠ a := by
      rintro rfl
      exact hn'.1 (by simp)
    refine ⟨hp, q', ?_, ih hl hn'.2⟩
    rw [Cells.cell_set_of_ne m _ hba, hc']

/-! ## several lists -/

/-- the lists of the store: no cell is in two of them -/
structure Owns (s : Store ρ α) (own : ρ → List (Nat × α)) : Prop where
  path : ∀ r, Path s.cells (s.root r) (own r)
  nodup : ∀ r, (addrs (own r)).Nodup
  disjoint : ∀ r r', r ≠ r' → ∀ a ∈ addrs (own r), a ∉ addrs (own r')

variable {s : Store ρ α} {own : ρ → List (Nat × α)}

theorem owns_empty (m : Cells α) : Owns (⟨m, fun _ => none⟩ : Store ρ α) fun _ => [] :=
  ⟨fun _ => rfl, fun _ => List.nodup_nil, fun _ _ _ _ h => absurd h (by simp)⟩

/-- enough turns for every list -/
theorem Owns.fuel (h : Owns s own) (r : ρ) : (own r).length < s.cells.length + 1 :=
  Nat.lt_succ_of_le ((h.path r).length_le (h.nodup r))

/-- a cell outside all lists -/
def Free (own : ρ → List (Nat × α)) (a : Nat) : Prop := ∀ r, a ∉ addrs (own r)

theorem Owns.alloc (h : Owns s own) (c : Cell α) :
    Owns (s.alloc c).2 own ∧ (s.alloc c).2.cells.cell (s.alloc c).1 = some c ∧
      Free own (s.alloc c).1 := by
  refine ⟨⟨fun r => (h.path r).frame fun a ha => Cells.cell_append c ((h.path r).lt a ha), h.nodup,
    h.disjoint⟩, Cells.cell_append_self _ c, fun r hr => ?_⟩
  exact absurd ((h.path r).lt _ hr) (Nat.lt_irrefl _)

/-- a change of a cell outside all lists -/
theorem Owns.setCell (h : Owns s own) {a : Nat} (c : Cell α) (ha : Free own a) :
    Owns (s.setCell a c) own :=
  ⟨fun r => (h.path r).frame fun b hb => Cells.cell_set_of_ne _ _ fun e => ha r (e ▸ hb), h.nodup,
    h.disjoint⟩

theorem Owns.cell (h : Owns s own) {r : ρ} {l t : List (Nat × α)} {a : Nat} {x : α}
    (ho : own r = l ++ (a, x) :: t) : ∃ q, s.cells.cell a = some ⟨x, q⟩ ∧ Path s.cells q t :=
  (ho ▸ h.path r : Path s.cells (s.root r) (l ++ (a, x) :: t)).cell

/-- replace the list of one root -/
theorem Owns.replace {s' : Store ρ α} {r : ρ} {l : List (Nat × α)} (h : Owns s own)
    (hp : Path s'.cells (s'.root r) l) (hn : (addrs l).Nodup)
    (hd : ∀ r', r' ≠ r → ∀ a ∈ addrs l, a ∉ addrs (own r'))
    (hf : ∀ r', r' ≠ r → s'.root r' = s.root r' ∧
      ∀ a ∈ addrs (own r'), s'.cells.cell a = s.cells.cell a) :
    Owns s' (Function.update own r l) := by
  refine ⟨fun r' => ?_, fun r' => ?_, fun r₁ r₂ hne a h₁ => ?_⟩
  · by_cases e : r' = r
    · subst e
      rw [Function.update_self]
      exact hp
    · rw [Function.update_of_ne e, (hf r' e).1]
      exact (h.path r').frame (hf r' e).2
  · by_cases e : r' = r
    · subst e
      rw [Function.update_self]
      exact hn
    · rw [Function.update_of_ne e]
      exact h.nodup r'
  · by_cases e₁ : r₁ = r
    · subst e₁
      rw [Function.update_self] at h₁
      rw [Function.update_of_ne fun e => hne e.symm]
      exact hd r₂ (fun e => hne e.symm) a h₁
    · rw [Function.update_of_ne e₁] at h₁
      by_cases e₂ : r₂ = r
      · subst e₂
        rw [Function.update_self]
        exact fun h₂ => hd r₁ e₁ a h₂ h₁
      · rw [Function.update_of_ne e₂]
        exact h.disjoint r₁ r₂ hne a h₁

/-- `c->next = root; root = c;` for a cell outside all lists -/
theorem Owns.push (h : Owns s own) (r : ρ) {a : Nat} {x : α} {q : Ptr} (ha : Free own a)
    (hc : s.cells.cell a = some ⟨x, q⟩) :
    ∃ s₁ s₂, s.put (s.root r) (.next a) = some s₁ ∧ s₁.put (some a) (.root r) = some s₂ ∧
      Owns s₂ (Function.update own r ((a, x) :: own r)) := by
  refine ⟨_, _, by rw [Store.put, hc]; rfl, rfl, h.replace ?_ ?_ ?_ fun r' hr => ⟨?_, ?_⟩⟩
  · show Path (s.cells.set a (some ⟨x, s.root r⟩)) (Function.update s.root r (some a) r) _
    rw [Function.update_self]
    exact ⟨rfl, _, Cells.cell_set_self hc, ((h.setCell ⟨x, s.root r⟩ ha).path r)⟩
  · exact List.nodup_cons.mpr ⟨ha r, h.nodup r⟩
  · intro r' hr b hb
    rcases List.mem_cons.mp hb with rfl | hb
    · exact ha r'
    · exact h.disjoint r r' (fun e => hr e.symm) b hb
  · exact Function.update_of_ne hr _ _
  · exact fun b hb => Cells.cell_set_of_ne _ _ fun e => ha r' (e ▸ hb)

/-- the data of a cell of a list change -/
theorem Owns.write (h : Owns s own) {r : ρ} {l t : List (Nat × α)} {a : Nat} {x : α} (y : α)
    (ho : own r = l ++ (a, x) :: t) {q : Ptr} (hc : s.cells.cell a = some ⟨x, q⟩) :
    Owns (s.setCell a ⟨y, q⟩) (Function.update own r (l ++ (a, y) :: t)) := by
  have hp := h.path r
  have hn := h.nodup r
  rw [ho] at hp hn
  have ha : a ∈ addrs (own r) := by
    rw [ho]
    simp
  have hs : addrs (l ++ (a, y) :: t) = addrs (own r) := by
    rw [ho]
    simp
  refine h.replace (hp.write hn hc) (hs ▸ h.nodup r) (fun r' hr => ?_) fun r' hr => ⟨rfl, ?_⟩
  · rw [hs]
    exact h.disjoint r r' fun e => hr e.symm
  · exact fun b hb => Cells.cell_set_of_ne _ _ fun e =>
      h.disjoint r' r hr b hb (e ▸ ha)

theorem behind_snoc (prev : Link ρ) (l : List (Nat × α)) (b : Nat) (y : α) :
    behind prev (l ++ [(b, y)]) = .next b := by
  induction l generalizing prev with
  | nil => rfl
  | cons e l ih => exact ih _

/-- `*prev = t->next;` takes the cell out of its list -/
theorem Owns.unlink (h : Owns s own) {r : ρ} {l t : List (Nat × α)} {a : Nat} {x : α}
    (ho : own r = l ++ (a, x) :: t) {q : Ptr} (hc : s.cells.cell a = some ⟨x, q⟩) :
    ∃ s', s.put q (behind (.root r) l) = some s' ∧ Owns s' (Function.update own r (l ++ t)) ∧
      Free (Function.update own r (l ++ t)) a ∧ s'.cells.cell a = some ⟨x, q⟩ ∧
      (∀ r', r' ≠ r → s'.root r' = s.root r') := by
  have hp := h.path r
  have hn := h.nodup r
  rw [ho] at hp hn
  obtain ⟨q', hc', ht⟩ := hp.cell
  obtain rfl : q = q' := by
    rw [hc] at hc'
    exact (Cell.mk.inj (Option.some.inj hc')).2
  have hmem : ∀ b ∈ addrs (l ++ t), b ∈ addrs (own r) := by
    intro b hb
    rw [ho]
    simp only [List.map_append, List.mem_append, List.map_cons, List.mem_cons] at hb ⊢
    exact hb.elim Or.inl fun hb => Or.inr (Or.inr hb)
  have hsub : (addrs (l ++ t)).Nodup := by
    refine hn.sublist ?_
    simp only [List.map_append, List.map_cons]
    exact (List.sublist_cons_self a _).append_left _
  have ha : a ∉ addrs (l ++ t) := by
    simp only [List.map_append, List.map_cons] at hn ⊢
    exact (List.nodup_middle.mp hn |> List.nodup_cons.mp).1
  have hfree : Free (Function.update own r (l ++ t)) a := by
    intro r' hr'
    by_cases e : r' = r
    · subst e
      rw [Function.update_self] at hr'
      exact ha hr'
    · rw [Function.update_of_ne e] at hr'
      exact h.disjoint r r' (fun e' => e e'.symm) a (by rw [ho]; simp) hr'
  have hdis : ∀ r', r' ≠ r → ∀ b ∈ addrs (l ++ t), b ∉ addrs (own r') :=
    fun r' hr b hb => h.disjoint r r' (fun e => hr e.symm) b (hmem b hb)
  rcases List.eq_nil_or_concat l with rfl | ⟨l, ⟨b, y⟩, rfl⟩
  · -- the cell is the first one
    refine ⟨_, rfl, h.replace ?_ hsub hdis fun r' hr => ⟨Function.update_of_ne hr _ _, fun _ _ => rfl⟩,
      hfree, hc, fun r' hr => Function.update_of_ne hr _ _⟩
    show Path s.cells (Function.update s.root r q r) t
    rw [Function.update_self]
    exact ht
  · have ho' : own r = l ++ (b, y) :: (a, x) :: t := by
      rw [ho]
      simp
    obtain ⟨qb, hb, -⟩ := h.cell ho'
    have hab : a ≠ b := by
      rintro rfl
      exact ha (by simp)
    have hp' := h.path r
    have hn' := h.nodup r
    rw [ho'] at hp' hn'
    have htb : Path (s.cells.set b (some ⟨y, q⟩)) q t := ht.frame fun c hct =>
      Cells.cell_set_of_ne _ _ fun e => by
        have hmid : addrs (l ++ (b, y) :: (a, x) :: t) = addrs l ++ b :: a :: addrs t := by simp
        rw [hmid] at hn'
        have := (List.nodup_cons.mp (List.nodup_middle.mp hn')).1
        exact this (List.mem_append_right _ (List.mem_cons_of_mem _ (e ▸ hct)))
    refine ⟨s.setCell b ⟨y, q⟩, ?_, h.replace ?_ hsub hdis fun r' hr => ⟨rfl, fun c hcr => ?_⟩,
      hfree, ?_, fun r' hr => rfl⟩
    · rw [List.concat_eq_append, behind_snoc, Store.put, hb]
      rfl
    · rw [List.concat_eq_append, List.append_assoc]
      exact hp'.redirect hn' htb
    · exact Cells.cell_set_of_ne _ _ fun e => h.disjoint r' r hr c hcr (by rw [e, ho']; simp)
    · show Cells.cell (s.cells.set b (some ⟨y, q⟩)) a = _
      rw [Cells.cell_set_of_ne _ _ hab, hc]

/-- freeing a list leaves the other cells alone -/
theorem freeAll_path {m : Cells α} {p : Ptr} {l : List (Nat × α)} {fuel : Nat} (h : Path m p l)
    (hn : (addrs l).Nodup) (hf : l.length < fuel) :
    ∃ m', freeAll fuel p m = some m' ∧ m'.length = m.length ∧
      ∀ b, b ∉ addrs l → m'.cell b = m.cell b := by
  induction l generalizing m p fuel with
  | nil =>
    obtain ⟨fuel, rfl⟩ : ∃ k, fuel = k + 1 := ⟨fuel - 1, by simp at hf; omega⟩
    obtain rfl : p = none := h
    exact ⟨m, rfl, rfl, fun _ _ => rfl⟩
  | cons e l ih =>
    obtain ⟨a, x⟩ := e
    rw [List.length_cons] at hf
    obtain ⟨fuel, rfl⟩ : ∃ k, fuel = k + 1 := ⟨fuel - 1, by omega⟩
    obtain ⟨rfl, q, hc, hl⟩ := h
    have hn' := List.nodup_cons.mp (show (a :: addrs l).Nodup from hn)
    have hl' : Path (m.set a none) q l := hl.frame fun b hb =>
      Cells.cell_set_of_ne m none fun e => hn'.1 (e ▸ hb)
    obtain ⟨m', h1, h2, h3⟩ := ih hl' hn'.2 (by omega : l.length < fuel)
    refine ⟨m', ?_, h2.trans List.length_set, fun b hb => ?_⟩
    · rw [freeAll, hc]
      exact h1
    · rw [h3 b fun hm => hb (List.mem_cons_of_mem a hm),
        Cells.cell_set_of_ne m none fun e => hb (by rw [e]; exact List.mem_cons_self)]

theorem Owns.freeRoot (h : Owns s own) (r : ρ) :
    ∃ s', s.freeRoot r = some s' ∧ Owns s' (Function.update own r []) := by
  obtain ⟨m', h1, h2, h3⟩ := freeAll_path (h.path r) (h.nodup r) (h.fuel r)
  refine ⟨⟨m', Function.update s.root r none⟩, by rw [Store.freeRoot, h1]; rfl,
    h.replace ?_ List.nodup_nil (fun _ _ _ ha => absurd ha (by simp)) fun r' hr =>
      ⟨Function.update_of_ne hr _ _, fun a ha => h3 a (h.disjoint r' r hr a ha)⟩⟩
  show Path m' (Function.update s.root r none r) []
  rw [Function.update_self]
  rfl

theorem Owns.freeRoots (rs : List ρ) (h : Owns s own) :
    ∃ s' own', rs.foldlM (fun s r => s.freeRoot r) s = some s' ∧ Owns s' own' ∧
      (∀ r ∈ rs, own' r = []) ∧ ∀ r, own r = [] → own' r = [] := by
  induction rs generalizing s own with
  | nil => exact ⟨s, own, rfl, h, fun _ hr => absurd hr (by simp), fun _ hr => hr⟩
  | cons r rs ih =>
    obtain ⟨s₁, h₁, ho₁⟩ := h.freeRoot r
    obtain ⟨s', own', h₂, ho₂, hin, hout⟩ := ih ho₁
    have hr : own' r = [] := hout r (Function.update_self _ _ _)
    refine ⟨s', own', ?_, ho₂, fun r' hr' => ?_, fun r' hr' => hout r' ?_⟩
    · rw [List.foldlM_cons, h₁]
      exact h₂
    · rcases List.mem_cons.mp hr' with rfl | hr'
      · exact hr
      · exact hin r' hr'
    · by_cases e : r' = r
      · rw [e, Function.update_self]
      · rw [Function.update_of_ne e, hr']

/-- more cells, the old ones unchanged -/
structure Grows (s s' : Store ρ α) : Prop where
  root : s'.root = s.root
  length : s.cells.length ≤ s'.cells.length
  cell : ∀ a, a < s.cells.length → s'.cells.cell a = s.cells.cell a

theorem Grows.refl (s : Store ρ α) : Grows s s := ⟨rfl, Nat.le_refl _, fun _ _ => rfl⟩

theorem Grows.trans {s s' s'' : Store ρ α} (h : Grows s s') (h' : Grows s' s'') : Grows s s'' :=
  ⟨h'.root.trans h.root, Nat.le_trans h.length h'.length, fun a ha =>
    (h'.cell a (Nat.lt_of_lt_of_le ha h.length)).trans (h.cell a ha)⟩

theorem grows_alloc (s : Store ρ α) (c : Cell α) : Grows s (s.alloc c).2 :=
  ⟨rfl, by simp [Store.alloc], fun _ ha => Cells.cell_append c ha⟩

theorem Grows.path {s s' : Store ρ α} (h : Grows s s') {p : Ptr} {l : List (Nat × α)}
    (hp : Path s.cells p l) : Path s'.cells p l := hp.frame fun a ha => h.cell a (hp.lt a ha)

theorem Owns.grow {s s' : Store ρ α} {own : ρ → List (Nat × α)} (h : Owns s own)
    (hg : Grows s s') : Owns s' own :=
  ⟨fun r => by rw [hg.root]; exact hg.path (h.path r), h.nodup, h.disjoint⟩

end Links
