import Mathlib.Data.List.Basic
import Mathlib.Data.List.Nodup
import Mathlib.Data.Fintype.Basic
import Mathlib.Data.List.FinRange
import Mathlib.Algebra.BigOperators.Group.List.Basic

/-!
# Hash tables with chaining

A table of `n` chains over an arbitrary key type; `bucket` says in which chain a key lives.
`Chained` carries its two invariants: every entry stands in the chain of its key, and no key
occurs twice.

* `get`, `set`, `erase`   the operations: an existing entry is overwritten in place, a new one
                          goes to the head of its chain;
* `get_set`, `get_erase`  they are those of a finite map;
* `entries`               all entries, chain by chain; `get_eq_some` and `keys_nodup` say that it
                          lists the map;
* `entries_perm`          conversely the map determines the entries, up to their order;
* `entries_sublist`       entries of different chains stand in the order of their chains.
-/

set_option linter.unusedSectionVars false

variable {κ ν : Type} [DecidableEq κ] {n : Nat}

/-! ## one chain -/

namespace Chain

/-- the entry of key `k` -/
def find (l : List (κ × ν)) (k : κ) : Option ν :=
  match l with
  | [] => none
  | e :: l => if e.1 = k then some e.2 else find l k

/-- overwrite the entry of key `k` in place -/
def upd (l : List (κ × ν)) (k : κ) (v : ν) : List (κ × ν) :=
  match l with
  | [] => []
  | e :: l => if e.1 = k then (k, v) :: l else e :: upd l k v

/-- unlink the entry of key `k` -/
def del (l : List (κ × ν)) (k : κ) : List (κ × ν) :=
  match l with
  | [] => []
  | e :: l => if e.1 = k then l else e :: del l k

theorem find_eq_none {l : List (κ × ν)} {k : κ} : find l k = none ↔ k ∉ l.map Prod.fst := by
  induction l with
  | nil => simp [find]
  | cons e l ih =>
    by_cases h : e.1 = k
    · simp [find, h]
    · have h' : ¬ k = e.1 := fun e' => h e'.symm
      simp [find, h, h', ih]

theorem find_eq_some {l : List (κ × ν)} {k : κ} {v : ν} (hn : (l.map Prod.fst).Nodup) :
    find l k = some v ↔ (k, v) ∈ l := by
  induction l with
  | nil => simp [find]
  | cons e l ih =>
    obtain ⟨k', v'⟩ := e
    rw [List.map_cons, List.nodup_cons] at hn
    by_cases h : k' = k
    · subst h
      have hk : (k', v) ∉ l := fun hm => hn.1 (List.mem_map.mpr ⟨_, hm, rfl⟩)
      simp [find, hk, eq_comm]
    · have h' : ¬ k = k' := fun e' => h e'.symm
      simp [find, h, h', ih hn.2]

theorem find_append (l l' : List (κ × ν)) (k : κ) : find (l ++ l') k = (find l k).or (find l' k) := by
  induction l with
  | nil => rfl
  | cons e l ih =>
    by_cases h : e.1 = k
    · simp [find, h]
    · simp [find, h, ih]

/-- without repeated keys the order does not matter -/
theorem find_reverse {l : List (κ × ν)} (hn : (l.map Prod.fst).Nodup) (k : κ) :
    find l.reverse k = find l k := by
  refine Option.ext fun v => ?_
  rw [find_eq_some hn, find_eq_some (by rwa [List.map_reverse, List.nodup_reverse]),
    List.mem_reverse]

theorem find_map {ν' : Type} (f : ν → ν') (l : List (κ × ν)) (k : κ) :
    find (l.map fun e => (e.1, f e.2)) k = (find l k).map f := by
  induction l with
  | nil => rfl
  | cons e l ih =>
    by_cases h : e.1 = k
    · simp [find, h]
    · simp [find, h, ih]

theorem map_fst_upd (l : List (κ × ν)) (k : κ) (v : ν) :
    (upd l k v).map Prod.fst = l.map Prod.fst := by
  induction l with
  | nil => rfl
  | cons e l ih =>
    by_cases h : e.1 = k
    · simp [upd, h]
    · simp [upd, h, ih]

theorem find_upd (l : List (κ × ν)) (k k' : κ) (v : ν) (hk : k ∈ l.map Prod.fst) :
    find (upd l k v) k' = if k' = k then some v else find l k' := by
  induction l with
  | nil => exact absurd hk (by simp)
  | cons e l ih =>
    by_cases h : e.1 = k
    · by_cases h' : k' = k
      · subst h'; simp [upd, find, h]
      · have h'' : ¬ k = k' := fun e' => h' e'.symm
        simp [upd, find, h, h', h'']
    · have hk' : k ∈ l.map Prod.fst := by
        rcases List.mem_cons.mp hk with e' | e'
        · exact absurd e'.symm h
        · exact e'
      by_cases h' : e.1 = k'
      · have : ¬ k' = k := fun e' => h (h'.trans e')
        simp [upd, find, h', this]
      · simp [upd, find, h, h', ih hk']

theorem mem_upd {l : List (κ × ν)} {k : κ} {v : ν} {e : κ × ν} (h : e ∈ upd l k v) :
    e = (k, v) ∨ e ∈ l := by
  induction l with
  | nil => exact absurd h (by simp [upd])
  | cons e' l ih =>
    unfold upd at h
    split at h
    · rcases List.mem_cons.mp h with h | h
      · exact Or.inl h
      · exact Or.inr (List.mem_cons_of_mem _ h)
    · rcases List.mem_cons.mp h with h | h
      · exact Or.inr (h ▸ List.mem_cons_self)
      · rcases ih h with h | h
        · exact Or.inl h
        · exact Or.inr (List.mem_cons_of_mem _ h)

theorem del_sublist (l : List (κ × ν)) (k : κ) : (del l k).Sublist l := by
  induction l with
  | nil => exact List.Sublist.slnil
  | cons e l ih =>
    unfold del
    split
    · exact List.sublist_cons_self e l
    · exact ih.cons_cons e

theorem find_del (l : List (κ × ν)) (k k' : κ) (hn : (l.map Prod.fst).Nodup) :
    find (del l k) k' = if k' = k then none else find l k' := by
  induction l with
  | nil => simp [del, find]
  | cons e l ih =>
    rw [List.map_cons, List.nodup_cons] at hn
    by_cases h : e.1 = k
    · by_cases h' : k' = k
      · subst h'
        have hf : find l k' = none := find_eq_none.mpr (by rw [← h]; exact hn.1)
        simp [del, h, hf]
      · have h'' : ¬ k = k' := fun e' => h' e'.symm
        simp [del, find, h, h', h'']
    · by_cases h' : e.1 = k'
      · have : ¬ k' = k := fun e' => h (h'.trans e')
        simp [del, find, h', this]
      · simp [del, find, h, h', ih hn.2]

/-! ### a chain cut at the entry -/

theorem find_split {l : List (κ × ν)} {k : κ} {v : ν} (h : find l k = some v) :
    ∃ l₁ l₂, l = l₁ ++ (k, v) :: l₂ ∧ ∀ e ∈ l₁, e.1 ≠ k := by
  induction l with
  | nil => exact absurd h (by simp [find])
  | cons e l ih =>
    unfold find at h
    by_cases he : e.1 = k
    · rw [if_pos he] at h
      refine ⟨[], l, ?_, fun _ hm => absurd hm (by simp)⟩
      rw [← he, ← Option.some.inj h]
      rfl
    · rw [if_neg he] at h
      obtain ⟨l₁, l₂, rfl, hn⟩ := ih h
      refine ⟨e :: l₁, l₂, rfl, fun e' hm => ?_⟩
      rcases List.mem_cons.mp hm with rfl | hm
      · exact he
      · exact hn e' hm

theorem upd_split {l₁ l₂ : List (κ × ν)} {k : κ} (v w : ν) (h : ∀ e ∈ l₁, e.1 ≠ k) :
    upd (l₁ ++ (k, v) :: l₂) k w = l₁ ++ (k, w) :: l₂ := by
  induction l₁ with
  | nil => simp [upd]
  | cons e l₁ ih =>
    rw [List.cons_append, upd, if_neg (h e List.mem_cons_self),
      ih fun e' he => h e' (List.mem_cons_of_mem e he)]
    rfl

theorem del_split {l₁ l₂ : List (κ × ν)} {k : κ} (v : ν) (h : ∀ e ∈ l₁, e.1 ≠ k) :
    del (l₁ ++ (k, v) :: l₂) k = l₁ ++ l₂ := by
  induction l₁ with
  | nil => simp [del]
  | cons e l₁ ih =>
    rw [List.cons_append, del, if_neg (h e List.mem_cons_self),
      ih fun e' he => h e' (List.mem_cons_of_mem e he)]
    rfl

end Chain

/-! ## the table -/

/-- a hash table: every entry stands in the chain of its key, no key occurs twice -/
structure Chained (κ ν : Type) (n : Nat) (bucket : κ → Fin n) where
  chain : Fin n → List (κ × ν)
  placed : ∀ i, ∀ e ∈ chain i, bucket e.1 = i
  nodup : ∀ i, ((chain i).map Prod.fst).Nodup

namespace Chained
open Chain
variable {bucket : κ → Fin n}

def empty : Chained κ ν n bucket where
  chain := fun _ => []
  placed := fun _ _ h => absurd h (by simp)
  nodup := fun _ => by simp

/-- replace the chain of key `k` -/
def setChain (t : Chained κ ν n bucket) (k : κ) (l : List (κ × ν))
    (hp : ∀ e ∈ l, bucket e.1 = bucket k) (hn : (l.map Prod.fst).Nodup) :
    Chained κ ν n bucket where
  chain := Function.update t.chain (bucket k) l
  placed := by
    intro i e he
    by_cases h : i = bucket k
    · subst h; rw [Function.update_self] at he; exact hp e he
    · rw [Function.update_of_ne h] at he; exact t.placed i e he
  nodup := by
    intro i
    by_cases h : i = bucket k
    · subst h; rw [Function.update_self]; exact hn
    · rw [Function.update_of_ne h]; exact t.nodup i

def get (t : Chained κ ν n bucket) (k : κ) : Option ν := find (t.chain (bucket k)) k

/-- overwrite the entry of `k` in place; nothing happens without one -/
def update (t : Chained κ ν n bucket) (k : κ) (v : ν) : Chained κ ν n bucket :=
  t.setChain k (upd (t.chain (bucket k)) k v)
    (fun e he => (mem_upd he).elim (fun h => by rw [h]) (fun h => t.placed _ e h))
    (by rw [map_fst_upd]; exact t.nodup _)

/-- a new entry at the head of its chain -/
def push (t : Chained κ ν n bucket) (k : κ) (v : ν) (h : t.get k = none) :
    Chained κ ν n bucket :=
  t.setChain k ((k, v) :: t.chain (bucket k))
    (fun e he => (List.mem_cons.mp he).elim (fun h => by rw [h]) (fun h => t.placed _ e h))
    (by rw [List.map_cons, List.nodup_cons]; exact ⟨find_eq_none.mp h, t.nodup _⟩)

def set (t : Chained κ ν n bucket) (k : κ) (v : ν) : Chained κ ν n bucket :=
  if h : t.get k = none then t.push k v h else t.update k v

def erase (t : Chained κ ν n bucket) (k : κ) : Chained κ ν n bucket :=
  t.setChain k (del (t.chain (bucket k)) k)
    (fun e he => t.placed _ e ((del_sublist _ _).mem he))
    ((t.nodup _).sublist ((del_sublist _ _).map _))

theorem get_setChain (t : Chained κ ν n bucket) (k k' : κ) (l : List (κ × ν)) (hp hn) :
    (t.setChain k l hp hn).get k' = if bucket k' = bucket k then find l k' else t.get k' := by
  show find (Function.update t.chain (bucket k) l (bucket k')) k' = _
  by_cases h : bucket k' = bucket k
  · rw [if_pos h, h, Function.update_self]
  · rw [if_neg h, Function.update_of_ne h]; rfl

theorem chain_set_of_none (t : Chained κ ν n bucket) (k : κ) (v : ν) (h : t.get k = none) :
    (t.set k v).chain = Function.update t.chain (bucket k) ((k, v) :: t.chain (bucket k)) := by
  unfold set
  rw [dif_pos h]
  rfl

@[simp] theorem get_empty (k : κ) : (empty : Chained κ ν n bucket).get k = none := rfl

theorem get_update (t : Chained κ ν n bucket) (k k' : κ) (v : ν) (h : t.get k ≠ none) :
    (t.update k v).get k' = if k' = k then some v else t.get k' := by
  have hk : k ∈ (t.chain (bucket k)).map Prod.fst := by
    by_contra hc
    exact h (find_eq_none.mpr hc)
  show (t.setChain k _ _ _).get k' = _
  rw [get_setChain]
  by_cases hb : bucket k' = bucket k
  · rw [if_pos hb, find_upd _ _ _ _ hk]
    show _ = if k' = k then some v else find (t.chain (bucket k')) k'
    rw [hb]
  · rw [if_neg hb, if_neg (fun e => hb (by rw [e]))]

theorem get_push (t : Chained κ ν n bucket) (k k' : κ) (v : ν) (h : t.get k = none) :
    (t.push k v h).get k' = if k' = k then some v else t.get k' := by
  show (t.setChain k _ _ _).get k' = _
  rw [get_setChain]
  by_cases hb : bucket k' = bucket k
  · rw [if_pos hb]
    show (if k = k' then some v else find (t.chain (bucket k)) k') = _
    by_cases e : k' = k
    · rw [if_pos e.symm, if_pos e]
    · rw [if_neg (fun e' => e e'.symm), if_neg e, ← hb]; rfl
  · rw [if_neg hb, if_neg (fun e => hb (by rw [e]))]

theorem get_set (t : Chained κ ν n bucket) (k k' : κ) (v : ν) :
    (t.set k v).get k' = if k' = k then some v else t.get k' := by
  unfold set
  split
  · next h => exact get_push t k k' v h
  · next h => exact get_update t k k' v h

theorem get_erase (t : Chained κ ν n bucket) (k k' : κ) :
    (t.erase k).get k' = if k' = k then none else t.get k' := by
  show (t.setChain k _ _ _).get k' = _
  rw [get_setChain]
  by_cases hb : bucket k' = bucket k
  · rw [if_pos hb, find_del _ _ _ (t.nodup _)]
    show _ = if k' = k then none else find (t.chain (bucket k')) k'
    rw [hb]
  · rw [if_neg hb, if_neg (fun e => hb (by rw [e]))]

/-! ## all entries -/

/-- the chains in ascending order -/
def chains (t : Chained κ ν n bucket) : List (List (κ × ν)) := (List.finRange n).map t.chain

def entries (t : Chained κ ν n bucket) : List (κ × ν) := t.chains.flatten

theorem mem_entries (t : Chained κ ν n bucket) (e : κ × ν) :
    e ∈ t.entries ↔ e ∈ t.chain (bucket e.1) := by
  constructor
  · intro h
    obtain ⟨l, hl, he⟩ := List.mem_flatten.mp h
    obtain ⟨i, _, rfl⟩ := List.mem_map.mp hl
    rw [t.placed i e he]
    exact he
  · intro h
    exact List.mem_flatten.mpr ⟨_, List.mem_map.mpr ⟨bucket e.1, List.mem_finRange _, rfl⟩, h⟩

theorem get_eq_some (t : Chained κ ν n bucket) (k : κ) (v : ν) :
    t.get k = some v ↔ (k, v) ∈ t.entries := by
  rw [mem_entries]
  exact find_eq_some (t.nodup _)

theorem keys_nodup (t : Chained κ ν n bucket) : (t.entries.map Prod.fst).Nodup := by
  unfold entries chains
  rw [List.map_flatten, List.map_map, List.nodup_flatten]
  constructor
  · intro l hl
    obtain ⟨i, _, rfl⟩ := List.mem_map.mp hl
    exact t.nodup i
  · rw [List.pairwise_map]
    refine (List.nodup_finRange n).imp ?_
    intro i j hij k hi hj
    obtain ⟨e, he, rfl⟩ := List.mem_map.mp hi
    obtain ⟨e', he', hk⟩ := List.mem_map.mp hj
    have h1 := t.placed i e he
    have h2 := t.placed j e' he'
    rw [hk, h1] at h2
    exact hij h2

/-- the entries are determined by the map, up to their order -/
theorem entries_perm (t : Chained κ ν n bucket) (l : List (κ × ν)) (hl : (l.map Prod.fst).Nodup)
    (h : ∀ k, t.get k = find l k) : t.entries.Perm l := by
  refine (List.perm_ext_iff_of_nodup (List.Nodup.of_map _ t.keys_nodup)
    (List.Nodup.of_map _ hl)).mpr fun e => ?_
  rw [← find_eq_some hl, ← h, get_eq_some]

/-- the order of the chains -/
theorem entries_sublist (t : Chained κ ν n bucket) {e f : κ × ν} (he : e ∈ t.entries)
    (hf : f ∈ t.entries) (hb : bucket e.1 < bucket f.1) : [e, f].Sublist t.entries := by
  obtain ⟨a, b, hab⟩ := List.append_of_mem (List.mem_finRange (bucket e.1))
  have hlt := List.pairwise_lt_finRange n
  rw [hab] at hlt
  have hj : bucket f.1 ∈ b := by
    have hm := List.mem_finRange (bucket f.1)
    rw [hab] at hm
    rcases List.mem_append.mp hm with hm | hm
    · exact absurd ((List.pairwise_append.mp hlt).2.2 _ hm _ List.mem_cons_self) (lt_asymm hb)
    · rcases List.mem_cons.mp hm with hm | hm
      · exact absurd (hm ▸ hb) (lt_irrefl _)
      · exact hm
  have hflat : t.entries = (a.map t.chain).flatten
      ++ (t.chain (bucket e.1) ++ (b.map t.chain).flatten) := by
    unfold entries chains
    rw [hab, List.map_append, List.flatten_append]
    rfl
  have hrest : f ∈ (b.map t.chain).flatten :=
    List.mem_flatten.mpr ⟨_, List.mem_map.mpr ⟨_, hj, rfl⟩, (t.mem_entries f).mp hf⟩
  have hpair : [e, f].Sublist (t.chain (bucket e.1) ++ (b.map t.chain).flatten) :=
    (List.singleton_sublist.mpr ((t.mem_entries e).mp he)).append
      (List.singleton_sublist.mpr hrest)
  rw [hflat]
  exact hpair.trans (List.sublist_append_right _ _)

end Chained
