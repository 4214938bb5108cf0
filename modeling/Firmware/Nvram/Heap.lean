import Firmware.Lib.Links
import Firmware.Nvram.Table

/-!
# nvram: the hash table in memory

The tuples are cells of linked lists: 257 chains and the dead table.  This is the code with its
pointers; `Nvram.Table` is the same on lists, and `Sim` relates the two.

* `nvramGet`, `nvramSet`, `nvramUnset`, `nvramGetall`, `nvramFree`   the library functions;
* `sim_get`, `sim_set`, `sim_unset`, `sim_free`   each of them does what its counterpart on lists
                                                  does, and never follows a wild pointer;
* `run_refines`                                   whole runs: the table is a finite map;
* `failsClean_iff`                                when a failing allocation leaves the old value.

`none` is an access through a wild pointer.
-/

set_option linter.unusedVariables false

namespace Nvram.Heap
open Links

/-- the lists of a handle -/
inductive Root where
  | chain (i : Fin 257)
  | dead
deriving DecidableEq

/-- the fields of `nvram_handle_t` the table uses -/
structure Handle where
  length : Nat
  offset : Nat
  store : Store Root Tuple

/-- the handle as `memset` leaves it -/
def Handle.zero (length offset : Nat) : Handle := ⟨length, offset, ⟨[], fun _ => none⟩⟩

section
variable (host : Host)

/-- the loops that look for the tuple of a name -/
def findTuple (h : Handle) (name : CStr) : Option (Link Root × Ptr) :=
  walk (fun t : Tuple => t.1 = name) h.store (h.store.cells.length + 1)
    (.root (.chain (bucket host name)))

/-- get the value of an NVRAM variable -/
def nvramGet (h : Handle) (name : CStr) : Option (Option CStr) := do
  let (_, t) ← findTuple host h name
  match t with
  | none => some none
  | some a => (h.store.cells.cell a).map fun c => c.data.2

/-- copy value -/
def setValue (mem : Mem) (h : Handle) (a : Nat) (value : CStr) : Option (Ptr × Handle) := do
  let c ← h.store.cells.cell a
  if c.data.2 = some value then some (some a, h)
  else if mem.realloc then
    some (some a, { h with store := h.store.setCell a ⟨(c.data.1, some value), c.next⟩ })
  else some (none, { h with store := h.store.setCell a ⟨(c.data.1, none), c.next⟩ })

/-- (re)allocate NVRAM tuples -/
def nvramRealloc (mem : Mem) (h : Handle) (t : Ptr) (name value : CStr) : Option (Ptr × Handle) :=
  if value.length + 1 > h.length - h.offset then some (none, h)
  else
    match t with
    | none =>
      if mem.malloc then
        -- `next` is written before it is read
        let (a, s) := h.store.alloc ⟨(name, none), none⟩
        setValue mem { h with store := s } a value
      else some (none, h)
    | some a => setValue mem h a value

/-- move a tuple to the dead table -/
def bury (h : Handle) (prev : Link Root) (a : Nat) : Option Handle := do
  let c ← h.store.cells.cell a
  let s ← h.store.put c.next prev
  let s ← s.put (s.root .dead) (.next a)
  let s ← s.put (some a) (.root .dead)
  some { h with store := s }

/-- set the value of an NVRAM variable -/
def nvramSet (mem : Mem) (h : Handle) (name value : CStr) : Option (Int × Handle) := do
  let (prev, t) ← findTuple host h name
  let (u, h) ← nvramRealloc mem h t name value
  match u with
  | none => some (-12, h)
  | some u =>
    if t = some u then some (0, h)
    else
      let h ← match t with
        | some t => bury h prev t
        | none => some h
      let s ← h.store.put (h.store.root (.chain (bucket host name))) (.next u)
      let s ← s.put (some u) (.root (.chain (bucket host name)))
      some (0, { h with store := s })

/-- unset the value of an NVRAM variable -/
def nvramUnset (h : Handle) (name : CStr) : Option (Int × Handle) := do
  let (prev, t) ← findTuple host h name
  match t with
  | some t => (bury h prev t).map fun h => (0, h)
  | none => some (0, h)

end

/-- free all tuples -/
def nvramFree (h : Handle) : Option Handle := do
  let s ← (List.finRange 257).foldlM (fun s i => s.freeRoot (.chain i)) h.store
  let s ← s.freeRoot .dead
  some { h with store := s }

/-- one chain of `nvram_getall`: a copy of every tuple goes to the front of the list `l` -/
def getallChain (mem : Mem) : Nat → Ptr → Ptr × Store Root Tuple → Option (Ptr × Store Root Tuple)
  | 0, _, _ => none
  | _ + 1, none, ls => some ls
  | fuel + 1, some a, (l, s) => do
    let c ← s.cells.cell a
    if mem.malloc then
      let (x, s) := s.alloc ⟨c.data, l⟩
      getallChain mem fuel c.next (some x, s)
    else some (l, s)

/-- get all NVRAM variables: the list and the handle -/
def nvramGetall (mem : Mem) (h : Handle) : Option (Ptr × Handle) := do
  let (l, s) ← (List.finRange 257).foldlM
    (fun (ls : Ptr × Store Root Tuple) i =>
      getallChain mem (ls.2.cells.length + 1) (ls.2.root (.chain i)) ls) (none, h.store)
  some (l, { h with store := s })

/-! ## the lists in memory -/

variable {host : Host}

/-- the memory `h` holds the table `t` -/
structure Sim (h : Handle) (t : Nvram.Handle host) : Prop where
  space : h.length - h.offset = t.space
  lists : ∃ own, Owns h.store own ∧ (∀ i, vals (own (.chain i)) = t.table.chain i) ∧
    vals (own .dead) = t.dead

/-- the search for a name in a chain, on the list -/
theorem findTuple_eq {h : Handle} {own : Root → List (Nat × Tuple)} (ho : Owns h.store own)
    (t : Table host) (hc : ∀ i, vals (own (.chain i)) = t.chain i) (name : CStr) :
    (t.get name = none ∧ ∃ prev, findTuple host h name = some (prev, none)) ∨
    ∃ l r a v, t.get name = some v ∧ own (.chain (bucket host name)) = l ++ (a, (name, v)) :: r ∧
      (∀ e ∈ vals l, e.1 ≠ name) ∧
      findTuple host h name = some (behind (.root (.chain (bucket host name))) l, some a) := by
  generalize hi : Root.chain (bucket host name) = i
  have hci : vals (own i) = t.chain (bucket host name) := hi ▸ hc _
  have hp := ho.path i
  have hf := ho.fuel i
  have hload : h.store.load (.root i) = some (h.store.root i) := rfl
  unfold findTuple
  rw [hi]
  cases hg : t.get name with
  | none =>
    have hn : ∀ e ∈ vals (own i), e.1 ≠ name := by
      intro e he heq
      refine Chain.find_eq_none.mp hg ?_
      rw [← hci]
      exact List.mem_map.mpr ⟨e, he, heq⟩
    exact .inl ⟨rfl, _, walk_missing hload hp (fun e he => by simpa using hn e he) hf⟩
  | some v =>
    obtain ⟨l₁, l₂, hl, hn⟩ := Chain.find_split hg
    rw [← hci] at hl
    obtain ⟨l, r', hown, rfl, hr⟩ := List.map_eq_append_iff.mp hl
    obtain ⟨⟨a, x⟩, r, rfl, hx, -⟩ := List.map_eq_cons_iff.mp hr
    obtain rfl : x = (name, v) := hx
    rw [hown] at hp hf
    refine .inr ⟨l, r, a, v, rfl, hown, hn, walk_found hload hp (fun e he => ?_) (by simp) ?_⟩
    · simpa using hn e he
    · rw [List.length_append] at hf
      omega

theorem sim_get {h : Handle} {t : Nvram.Handle host} (hs : Sim h t) (name : CStr) :
    nvramGet host h name = some (Nvram.nvramGet t name) := by
  obtain ⟨own, ho, hc, -⟩ := hs.lists
  unfold nvramGet Nvram.nvramGet
  rcases findTuple_eq ho t.table hc name with ⟨hg, prev, hw⟩ | ⟨l, r, a, v, hg, hown, -, hw⟩
  · rw [hw, hg]
    rfl
  · obtain ⟨q, hq, -⟩ := ho.cell hown
    simp only [hw, hg, Option.bind_eq_bind, Option.bind_some, hq]
    rfl

/-- the lists after the list of one chain was replaced -/
theorem update_chain {own : Root → List (Nat × Tuple)} {f : Fin 257 → List Tuple} {i : Fin 257}
    {l : List (Nat × Tuple)} {l' : List Tuple} (hc : ∀ j, vals (own (.chain j)) = f j)
    (hl : vals l = l') (j : Fin 257) :
    vals (Function.update own (.chain i) l (.chain j)) = Function.update f i l' j := by
  by_cases e : j = i
  · subst e
    rw [Function.update_self, Function.update_self, hl]
  · rw [Function.update_of_ne e, Function.update_of_ne (fun h => e (Root.chain.inj h)), hc]

/-- a new tuple -/
theorem sim_new (mem : Mem) {h : Handle} {t : Nvram.Handle host} (hs : Sim h t) {name : CStr}
    (value : CStr) (hg : t.table.get name = none) {prev : Link Root}
    (hw : findTuple host h name = some (prev, none)) : ∃ h', nvramSet host mem h name value
      = some ((Nvram.nvramSet mem t name value).1, h') ∧ Sim h' (Nvram.nvramSet mem t name value).2 := by
  obtain ⟨own, ho, hc, hd⟩ := hs.lists
  unfold nvramSet Nvram.nvramSet nvramRealloc Nvram.nvramRealloc
  rw [hw, hg, ← hs.space]
  by_cases hlen : value.length + 1 > h.length - h.offset
  · simp only [if_pos hlen]
    exact ⟨h, rfl, hs⟩
  by_cases hm : mem.malloc = true
  swap
  · simp only [if_neg hlen, if_neg hm]
    exact ⟨h, rfl, hs⟩
  simp only [if_neg hlen, if_pos hm]
  obtain ⟨ho₁, hcell, hfree⟩ := ho.alloc ⟨(name, none), none⟩
  generalize he : h.store.alloc ⟨(name, none), none⟩ = as at ho₁ hcell hfree
  obtain ⟨a, s⟩ := as
  dsimp only at ho₁ hcell hfree ⊢
  by_cases hr : mem.realloc = true
  · -- the tuple with its value goes to the head of the chain
    have ho₂ := ho₁.setCell ⟨(name, some value), none⟩ hfree
    have hcell₂ : (s.setCell a ⟨(name, some value), none⟩).cells.cell a
        = some ⟨(name, some value), none⟩ := Cells.cell_set_self hcell
    obtain ⟨s₁, s₂, h₁, h₂, ho₃⟩ := ho₂.push (.chain (bucket host name)) hfree hcell₂
    rw [if_pos hr]
    refine ⟨⟨h.length, h.offset, s₂⟩, ?_, hs.space, _, ho₃, fun j => ?_, ?_⟩
    · unfold setValue
      simp only [Option.bind_eq_bind, Option.bind_some, hcell, hr, if_true, reduceCtorEq, if_false,
        h₁, h₂]
    · show _ = (t.table.set name (some value)).chain j
      rw [Chained.chain_set_of_none _ _ _ hg]
      exact update_chain hc (by rw [← hc]; rfl) j
    · rw [Function.update_of_ne (by simp)]
      exact hd
  · refine ⟨⟨h.length, h.offset, s.setCell a ⟨(name, none), none⟩⟩, ?_, ?_⟩
    · unfold setValue
      simp only [Option.bind_eq_bind, Option.bind_some, hcell, if_neg hr, reduceCtorEq, if_false]
    · rw [if_neg hr]
      exact ⟨hs.space, own, ho₁.setCell _ hfree, hc, hd⟩

/-- the table after the tuple of a name got the value `w` -/
theorem sim_write {h : Handle} {t : Nvram.Handle host} (hs : Sim h t)
    {own : Root → List (Nat × Tuple)} (ho : Owns h.store own)
    (hc : ∀ i, vals (own (.chain i)) = t.table.chain i) (hd : vals (own .dead) = t.dead)
    {name : CStr} {l r : List (Nat × Tuple)} {a : Nat} {v : Option CStr} (w : Option CStr)
    (hown : own (.chain (bucket host name)) = l ++ (a, (name, v)) :: r)
    (hn : ∀ e ∈ vals l, e.1 ≠ name) {q : Ptr} (hq : h.store.cells.cell a = some ⟨(name, v), q⟩) :
    Sim ⟨h.length, h.offset, h.store.setCell a ⟨(name, w), q⟩⟩
      { t with table := t.table.update name w } := by
  refine ⟨hs.space, _, ho.write (name, w) hown hq, fun j => update_chain hc ?_ j, ?_⟩
  · rw [← hc, hown]
    simp only [List.map_append, List.map_cons]
    exact (Chain.upd_split v w hn).symm
  · rw [Function.update_of_ne (by simp)]
    exact hd

/-- the tuple is there -/
theorem sim_old (mem : Mem) {h : Handle} {t : Nvram.Handle host} (hs : Sim h t)
    {own : Root → List (Nat × Tuple)} (ho : Owns h.store own)
    (hc : ∀ i, vals (own (.chain i)) = t.table.chain i) (hd : vals (own .dead) = t.dead)
    {name : CStr} (value : CStr) {l r : List (Nat × Tuple)} {a : Nat} {v : Option CStr}
    (hg : t.table.get name = some v)
    (hown : own (.chain (bucket host name)) = l ++ (a, (name, v)) :: r)
    (hn : ∀ e ∈ vals l, e.1 ≠ name) {prev : Link Root}
    (hw : findTuple host h name = some (prev, some a)) : ∃ h', nvramSet host mem h name value
      = some ((Nvram.nvramSet mem t name value).1, h') ∧ Sim h' (Nvram.nvramSet mem t name value).2 := by
  obtain ⟨q, hq, -⟩ := ho.cell hown
  have hwrite := fun w => sim_write hs ho hc hd w hown hn hq
  have hset (w : Option CStr) : (t.table.set name w) = t.table.update name w := by
    unfold Chained.set
    rw [dif_neg (by rw [hg]; simp)]
  unfold nvramSet Nvram.nvramSet nvramRealloc Nvram.nvramRealloc
  rw [hw, hg, ← hs.space]
  by_cases hlen : value.length + 1 > h.length - h.offset
  · simp only [if_pos hlen]
    exact ⟨h, rfl, hs⟩
  simp only [if_neg hlen]
  unfold setValue
  simp only [Option.bind_eq_bind, Option.bind_some, hq]
  by_cases hv : v = some value
  · -- the same value: nothing is written
    have hsame := hwrite (some value)
    rw [Store.setCell_self (hv ▸ hq)] at hsame
    simp only [if_pos hv, Option.bind_some, if_true]
    exact ⟨h, rfl, hset _ ▸ hsame⟩
  · simp only [if_neg hv]
    by_cases hr : mem.realloc = true
    · simp only [if_pos hr, Option.bind_some, if_true]
      exact ⟨_, rfl, hset _ ▸ hwrite (some value)⟩
    · simp only [if_neg hr]
      exact ⟨_, rfl, hwrite none⟩

theorem sim_set (mem : Mem) {h : Handle} {t : Nvram.Handle host} (hs : Sim h t)
    (name value : CStr) : ∃ h', nvramSet host mem h name value
      = some ((Nvram.nvramSet mem t name value).1, h') ∧ Sim h' (Nvram.nvramSet mem t name value).2 := by
  obtain ⟨own, ho, hc, hd⟩ := hs.lists
  rcases findTuple_eq ho t.table hc name with ⟨hg, prev, hw⟩ | ⟨l, r, a, v, hg, hown, hn, hw⟩
  · exact sim_new mem hs value hg hw
  · exact sim_old mem hs ho hc hd value hg hown hn hw

/-- a tuple of a chain moves to the dead table -/
theorem bury_eq {h : Handle} {own : Root → List (Nat × Tuple)} (ho : Owns h.store own) {i : Fin 257}
    {l r : List (Nat × Tuple)} {a : Nat} {x : Tuple} (hown : own (.chain i) = l ++ (a, x) :: r) :
    ∃ s, bury h (behind (.root (.chain i)) l) a = some ⟨h.length, h.offset, s⟩ ∧
      Owns s (Function.update (Function.update own (.chain i) (l ++ r)) .dead
        ((a, x) :: own .dead)) := by
  obtain ⟨q, hq, -⟩ := ho.cell hown
  obtain ⟨s, hs, ho₁, hfree, hcell, -⟩ := ho.unlink hown hq
  obtain ⟨s₁, s₂, h₁, h₂, ho₂⟩ := ho₁.push .dead hfree hcell
  rw [Function.update_of_ne (by simp)] at ho₂
  refine ⟨s₂, ?_, ho₂⟩
  unfold bury
  simp only [Option.bind_eq_bind, Option.bind_some, hq, hs, h₁, h₂]

theorem sim_unset {h : Handle} {t : Nvram.Handle host} (hs : Sim h t) (name : CStr) :
    ∃ h', nvramUnset host h name = some ((Nvram.nvramUnset t name).1, h') ∧
      Sim h' (Nvram.nvramUnset t name).2 := by
  obtain ⟨own, ho, hc, hd⟩ := hs.lists
  unfold nvramUnset Nvram.nvramUnset
  rcases findTuple_eq ho t.table hc name with ⟨hg, prev, hw⟩ | ⟨l, r, a, v, hg, hown, hn, hw⟩
  · rw [hw, hg]
    exact ⟨h, rfl, hs⟩
  · obtain ⟨s, hb, ho'⟩ := bury_eq ho hown
    rw [hw, hg]
    refine ⟨⟨h.length, h.offset, s⟩, ?_, hs.space, _, ho', fun j => ?_, ?_⟩
    · simp only [Option.bind_eq_bind, Option.bind_some, hb, Option.map_some]
    · rw [Function.update_of_ne (by simp)]
      refine update_chain hc ?_ j
      rw [← hc, hown]
      simp only [List.map_append, List.map_cons]
      exact (Chain.del_split v hn).symm
    · rw [Function.update_self]
      exact congrArg ((name, v) :: ·) hd

theorem sim_free {h : Handle} {t : Nvram.Handle host} (hs : Sim h t) :
    ∃ h', nvramFree h = some h' ∧ Sim h' (Nvram.nvramFree t) := by
  obtain ⟨own, ho, -⟩ := hs.lists
  obtain ⟨s₁, own₁, h₁, ho₁, hin, -⟩ := ho.freeRoots ((List.finRange 257).map Root.chain)
  rw [List.foldlM_map] at h₁
  obtain ⟨s₂, h₂, ho₂⟩ := ho₁.freeRoot .dead
  refine ⟨⟨h.length, h.offset, s₂⟩, ?_, hs.space, _, ho₂, fun i => ?_, ?_⟩
  · unfold nvramFree
    simp only [Option.bind_eq_bind, Option.bind_some, h₁, h₂]
  · rw [Function.update_of_ne (by simp),
      hin _ (List.mem_map.mpr ⟨i, List.mem_finRange i, rfl⟩)]
    rfl
  · rw [Function.update_self]
    rfl

/-! ## the list of all variables -/

theorem getallChain_eq {l : List (Nat × Tuple)} : ∀ {fuel : Nat} {p q : Ptr}
    {la : List (Nat × Tuple)} {s : Store Root Tuple}, Path s.cells p l → Path s.cells q la →
    l.length < fuel → ∃ q' s' la', getallChain .ok fuel p (q, s) = some (q', s') ∧ Grows s s' ∧
      Path s'.cells q' la' ∧ vals la' = (vals l).reverse ++ vals la := by
  induction l with
  | nil =>
    intro fuel p q la s hp hq hf
    obtain ⟨fuel, rfl⟩ : ∃ k, fuel = k + 1 := ⟨fuel - 1, by simp at hf; omega⟩
    obtain rfl : p = none := hp
    exact ⟨q, s, la, rfl, Grows.refl s, hq, rfl⟩
  | cons e l ih =>
    intro fuel p q la s hp hq hf
    obtain ⟨a, x⟩ := e
    rw [List.length_cons] at hf
    obtain ⟨fuel, rfl⟩ : ∃ k, fuel = k + 1 := ⟨fuel - 1, by omega⟩
    obtain ⟨rfl, n, hc, hl⟩ := hp
    have hg := grows_alloc s ⟨x, q⟩
    have hnew : Path (s.alloc ⟨x, q⟩).2.cells (some (s.alloc ⟨x, q⟩).1)
        (((s.alloc ⟨x, q⟩).1, x) :: la) := ⟨rfl, q, Cells.cell_append_self _ _, hg.path hq⟩
    obtain ⟨q', s', la', h₁, h₂, h₃, h₄⟩ := ih (hg.path hl) hnew (by omega : l.length < fuel)
    refine ⟨q', s', la', ?_, hg.trans h₂, h₃, ?_⟩
    · rw [getallChain, hc]
      exact h₁
    · rw [h₄]
      simp

theorem getall_chains {own : Root → List (Nat × Tuple)} (is : List (Fin 257)) :
    ∀ {q : Ptr} {la : List (Nat × Tuple)} {s : Store Root Tuple}, Owns s own →
    Path s.cells q la → ∃ q' s' la', is.foldlM
      (fun (ls : Ptr × Store Root Tuple) i =>
        getallChain .ok (ls.2.cells.length + 1) (ls.2.root (.chain i)) ls) (q, s) = some (q', s') ∧
      Owns s' own ∧ Path s'.cells q' la' ∧
      vals la' = (is.map fun i => vals (own (.chain i))).flatten.reverse ++ vals la := by
  induction is with
  | nil => exact fun {q la s} ho hq => ⟨q, s, la, rfl, ho, hq, rfl⟩
  | cons i is ih =>
    intro q la s ho hq
    obtain ⟨q₁, s₁, la₁, h₁, hg, hq₁, hv⟩ := getallChain_eq (ho.path (.chain i)) hq (ho.fuel _)
    obtain ⟨q', s', la', h₂, ho', hq', hv'⟩ := ih (ho.grow hg) hq₁
    refine ⟨q', s', la', ?_, ho', hq', ?_⟩
    · rw [List.foldlM_cons, h₁]
      exact h₂
    · rw [hv', hv]
      simp

/-- the list holds every tuple of the table -/
theorem sim_getall {h : Handle} {t : Nvram.Handle host} (hs : Sim h t) :
    ∃ p h' la, nvramGetall .ok h = some (p, h') ∧ Sim h' t ∧ Path h'.store.cells p la ∧
      vals la = Nvram.nvramGetall t := by
  obtain ⟨own, ho, hc, hd⟩ := hs.lists
  obtain ⟨p, s, la, h₁, ho', hp, hv⟩ := getall_chains (List.finRange 257) ho
    (show Path h.store.cells none [] from rfl)
  refine ⟨p, ⟨h.length, h.offset, s⟩, la, ?_, ⟨hs.space, own, ho', hc, hd⟩, hp, ?_⟩
  · unfold nvramGetall
    simp only [Option.bind_eq_bind, h₁, Option.bind_some]
  · rw [hv]
    show _ = ((List.finRange 257).map t.table.chain).flatten.reverse
    simp only [hc]
    simp

/-! ## runs -/

/-- the library calls of a program; a commit or an open starts with `free` and goes on with `set` -/
inductive Call where
  | set (name value : CStr)
  | unset (name : CStr)
  | get (name : CStr)
  | getall
  | free

/-- one call, with successful allocations -/
def Call.run (host : Host) (c : Call) (h : Handle) : Option Handle :=
  match c with
  | .set n v => (nvramSet host .ok h n v).map Prod.snd
  | .unset n => (nvramUnset host h n).map Prod.snd
  | .get n => (nvramGet host h n).map fun _ => h
  | .getall => (nvramGetall .ok h).map Prod.snd
  | .free => nvramFree h

/-- what a call makes of the variable `name`; a value that does not fit is refused -/
def Call.effect (space : Nat) (name : CStr) : Call → Option (Option CStr)
  | .set n v => if n = name ∧ v.length + 1 ≤ space then some (some v) else none
  | .unset n => if n = name then some none else none
  | .free => some none
  | _ => none

/-- the value of the last `set` of `name` that no `unset` of it follows -/
def latest (space : Nat) (name : CStr) (calls : List Call) : Option CStr :=
  ((calls.filterMap (Call.effect space name)).getLast?).join

/-- **Step lemma.**  One call does to the map what it should, and every tuple keeps a value. -/
theorem sim_call (c : Call) {h : Handle} {t : Nvram.Handle host} (hs : Sim h t)
    (ht : SoundFor (fun _ => True) t.table) : ∃ (h' : Handle) (t' : Nvram.Handle host),
      c.run host h = some h' ∧ Sim h' t' ∧ t'.space = t.space ∧ SoundFor (fun _ => True) t'.table ∧
      ∀ k, Nvram.nvramGet t' k = (c.effect t.space k).getD (Nvram.nvramGet t k) := by
  cases c with
  | set n v =>
    obtain ⟨h', he, hs'⟩ := sim_set .ok hs n v
    refine ⟨h', _, by rw [Call.run, he]; rfl, hs', Handle.space_of_frame (frame_nvramSet _ _ _ _),
      soundFor_nvramSet ht n v trivial, fun k => ?_⟩
    by_cases hv : v.length + 1 ≤ t.space
    · rw [get_nvramSet t n v k hv, Call.effect]
      by_cases hk : n = k
      · rw [if_pos hk.symm, if_pos ⟨hk, hv⟩]
        rfl
      · rw [if_neg fun e => hk e.symm, if_neg fun e => hk e.1]
        rfl
    · rw [Nvram.nvramSet_ok, if_pos (by omega), Call.effect, if_neg fun e => hv e.2]
      rfl
  | unset n =>
    obtain ⟨h', he, hs'⟩ := sim_unset hs n
    refine ⟨h', _, by rw [Call.run, he]; rfl, hs', Handle.space_of_frame (frame_nvramUnset _ _),
      soundFor_run ht (.unset n) trivial, fun k => ?_⟩
    rw [get_nvramUnset, Call.effect]
    by_cases hk : n = k
    · rw [if_pos hk.symm, if_pos hk]
      rfl
    · rw [if_neg fun e => hk e.symm, if_neg hk]
      rfl
  | get n => exact ⟨h, t, by rw [Call.run, sim_get hs]; rfl, hs, rfl, ht, fun _ => rfl⟩
  | getall =>
    obtain ⟨p, h', la, he, hs', -⟩ := sim_getall hs
    exact ⟨h', t, by rw [Call.run, he]; rfl, hs', rfl, ht, fun _ => rfl⟩
  | free =>
    obtain ⟨h', he, hs'⟩ := sim_free hs
    exact ⟨h', _, he, hs', rfl, soundFor_empty _, fun _ => rfl⟩

/-- the calls of a program, in turn -/
def run (host : Host) (calls : List Call) (h : Handle) : Option Handle :=
  calls.foldlM (fun h c => c.run host h) h

/-- **Run lemma.** -/
theorem sim_run (calls : List Call) : ∀ {h : Handle} {t : Nvram.Handle host}, Sim h t →
    SoundFor (fun _ => True) t.table → ∃ (h' : Handle) (t' : Nvram.Handle host),
      run host calls h = some h' ∧ Sim h' t' ∧ t'.space = t.space ∧ SoundFor (fun _ => True) t'.table ∧
      ∀ k, Nvram.nvramGet t' k =
        ((calls.filterMap (Call.effect t.space k)).getLast?).getD (Nvram.nvramGet t k) := by
  induction calls with
  | nil => exact fun {h t} hs ht => ⟨h, t, rfl, hs, rfl, ht, fun _ => rfl⟩
  | cons c calls ih =>
    intro h t hs ht
    obtain ⟨h₁, t₁, he₁, hs₁, hsp₁, ht₁, hg₁⟩ := sim_call c hs ht
    obtain ⟨h', t', he, hs', hsp, ht', hg⟩ := ih hs₁ ht₁
    refine ⟨h', t', ?_, hs', hsp.trans hsp₁, ht', fun k => ?_⟩
    · show (c.run host h).bind (run host calls) = _
      rw [he₁, Option.bind_some, he]
    · rw [hg k, hsp₁, hg₁ k, List.filterMap_cons]
      cases c.effect t.space k with
      | none => rfl
      | some o => rw [List.getLast?_cons]; rfl

/-- an open handle before its first tuple -/
theorem sim_zero (length offset : Nat) : Sim (Handle.zero length offset)
    (⟨0, List.replicate length 0, offset, Chained.empty, []⟩ : Nvram.Handle host) := by
  refine ⟨?_, fun _ => [], owns_empty [], fun _ => rfl, rfl⟩
  show length - offset = (List.replicate length (0 : UInt8)).length - offset
  rw [List.length_replicate]

/-- the library functions see the finite map `m` -/
structure Refines (host : Host) (h : Handle) (m : CStr → Option CStr) : Prop where
  /-- `nvram_get` is the map -/
  get : ∀ name, nvramGet host h name = some (m name)
  /-- `nvram_getall` lists it -/
  getall : ∃ p h' l, nvramGetall .ok h = some (p, h') ∧ Path h'.store.cells p l ∧
    ((vals l).map Prod.fst).Nodup ∧ ∀ n v, (n, v) ∈ vals l ↔ ∃ x, v = some x ∧ m n = some x
  /-- a change of one name leaves the others alone -/
  set : ∀ n v name, name ≠ n → ∃ r h', nvramSet host .ok h n v = some (r, h') ∧
    nvramGet host h' name = some (m name)
  unset : ∀ n name, name ≠ n → ∃ r h', nvramUnset host h n = some (r, h') ∧
    nvramGet host h' name = some (m name)

theorem Sim.refines {h : Handle} {t : Nvram.Handle host} (hs : Sim h t)
    (ht : SoundFor (fun _ => True) t.table) : Refines host h (Nvram.nvramGet t) where
  get name := sim_get hs name
  getall := by
    obtain ⟨p, h', l, he, -, hp, hl⟩ := sim_getall hs
    refine ⟨p, h', l, he, hp, ?_, fun n v => ?_⟩
    · rw [hl, Nvram.nvramGetall, List.map_reverse, List.nodup_reverse]
      exact t.table.keys_nodup
    · rw [hl, Nvram.nvramGetall, List.mem_reverse, ← Chained.get_eq_some]
      constructor
      · intro hg
        obtain ⟨x, rfl⟩ := Option.ne_none_iff_exists'.mp (ht n v hg).1
        exact ⟨x, rfl, (nvramGet_eq_some ht n x).mpr hg⟩
      · rintro ⟨x, rfl, hg⟩
        exact (nvramGet_eq_some ht n x).mp hg
  set n v name hne := by
    obtain ⟨h', he, hs'⟩ := sim_set .ok hs n v
    refine ⟨_, h', he, ?_⟩
    rw [sim_get hs']
    by_cases hv : v.length + 1 ≤ t.space
    · rw [get_nvramSet t n v name hv, if_neg hne]
    · rw [Nvram.nvramSet_ok, if_pos (by omega)]
  unset n name hne := by
    obtain ⟨h', he, hs'⟩ := sim_unset hs n
    refine ⟨_, h', he, ?_⟩
    rw [sim_get hs', get_nvramUnset, if_neg hne]

/-- **The hash table is a finite map**: after any calls `nvram_get` returns what the last `set` of
the name put there, unless an `unset` followed. -/
theorem run_refines (host : Host) (length offset : Nat) (calls : List Call) :
    ∃ h, run host calls (Handle.zero length offset) = some h ∧
      Refines host h fun name => latest (length - offset) name calls := by
  obtain ⟨h, t, he, hs, -, ht, hg⟩ := sim_run calls (sim_zero length offset) (soundFor_empty _)
  have hm : Nvram.nvramGet t = fun name => latest (length - offset) name calls := by
    funext name
    rw [hg, latest]
    have hsp : (⟨0, List.replicate length 0, offset, Chained.empty, []⟩ : Nvram.Handle host).space
        = length - offset := (sim_zero length offset).space.symm
    rw [hsp]
    cases (calls.filterMap (Call.effect (length - offset) name)).getLast? <;> rfl
  exact ⟨h, he, hm ▸ hs.refines ht⟩

/-! ## failing allocations -/

/-- every tuple of the chains has a value -/
def NoNull (h : Handle) : Prop :=
  ∀ i l, Path h.store.cells (h.store.root (.chain i)) l → ∀ x ∈ vals l, x.2 ≠ none

theorem Sim.noNull {h : Handle} {t : Nvram.Handle host} (hs : Sim h t) :
    NoNull h ↔ SoundFor (fun _ => True) t.table := by
  obtain ⟨own, ho, hc, -⟩ := hs.lists
  constructor
  · intro hn k v hk
    have hm := (Chained.mem_entries _ _).mp ((Chained.get_eq_some _ k v).mp hk)
    rw [← hc] at hm
    exact ⟨hn _ _ (ho.path _) (k, v) hm, trivial⟩
  · intro ht i l hp x hx
    rw [hp.unique (ho.path (.chain i)), hc] at hx
    have hm : x ∈ t.table.entries := by
      rw [Chained.mem_entries, t.table.placed i x hx]
      exact hx
    exact (ht x.1 x.2 ((Chained.get_eq_some _ _ _).mpr hm)).1

/-- a failing `nvram_set` changes nothing and leaves no NULL value -/
def FailsClean (host : Host) (mem : Mem) (h : Handle) (name value : CStr) : Prop :=
  ∃ r h', nvramSet host mem h name value = some (r, h') ∧ (r = -12 →
    (∀ k, nvramGet host h' k = nvramGet host h k) ∧ (NoNull h → NoNull h'))

/-- the same on the lists -/
theorem Sim.failsClean {h : Handle} {t : Nvram.Handle host} (hs : Sim h t) (mem : Mem)
    (name value : CStr) : FailsClean host mem h name value ↔
      ((Nvram.nvramSet mem t name value).1 = -12 →
        (∀ k, Nvram.nvramGet (Nvram.nvramSet mem t name value).2 k = Nvram.nvramGet t k) ∧
        (SoundFor (fun _ => True) t.table →
          SoundFor (fun _ => True) (Nvram.nvramSet mem t name value).2.table)) := by
  obtain ⟨h', he, hs'⟩ := sim_set mem hs name value
  unfold FailsClean
  rw [he]
  simp only [Option.some.injEq, Prod.mk.injEq, and_assoc, exists_and_left, exists_eq_left',
    sim_get hs, sim_get hs', hs.noNull, hs'.noNull]

/-- `realloc` has to make room for another value and fails -/
theorem nvramSet_nulled {mem : Mem} {t : Nvram.Handle host} {name value : CStr}
    {old : Option CStr} (hv : value.length + 1 ≤ t.space) (hr : mem.realloc = false)
    (hg : t.table.get name = some old) (ho : old ≠ some value) : Nvram.nvramSet mem t name value
      = (-12, { t with table := t.table.update name none }) := by
  unfold Nvram.nvramSet Nvram.nvramRealloc
  rw [if_neg (by omega), hg]
  simp only [if_neg ho, hr, Bool.false_eq_true, if_false]

/-- in all other cases a failure comes before the first change -/
theorem nvramSet_other {mem : Mem} {t : Nvram.Handle host} {name value : CStr}
    (hn : ¬ (value.length + 1 ≤ t.space ∧ mem.realloc = false ∧
      ∃ old, t.table.get name = some old ∧ old ≠ some value)) :
    Nvram.nvramSet mem t name value = (-12, t) ∨ (Nvram.nvramSet mem t name value).1 = 0 := by
  unfold Nvram.nvramSet Nvram.nvramRealloc
  by_cases hv : value.length + 1 > t.space
  · rw [if_pos hv]
    exact .inl rfl
  rw [if_neg hv]
  cases hg : t.table.get name with
  | none =>
    cases hm : mem.malloc <;> cases hr : mem.realloc <;> simp
  | some old =>
    by_cases ho : old = some value
    · simp [ho]
    · have hr : mem.realloc = true := by
        by_contra hr
        exact hn ⟨by omega, Bool.eq_false_of_not_eq_true hr, old, hg, ho⟩
      simp [ho, hr]

/-- what the failing `realloc` costs -/
theorem FailsClean.kept {h : Handle} {t : Nvram.Handle host} (hs : Sim h t) {mem : Mem}
    {name value : CStr} (hc : FailsClean host mem h name value)
    (hv : value.length + 1 ≤ h.length - h.offset) (hr : mem.realloc = false) {old : CStr}
    (hg : nvramGet host h name = some (some old)) : old = value := by
  rw [hs.failsClean] at hc
  rw [hs.space] at hv
  rw [sim_get hs, Option.some.injEq] at hg
  by_contra hne
  have hget : t.table.get name = some (some old) := by
    rwa [Nvram.nvramGet, Option.join_eq_some_iff] at hg
  rw [nvramSet_nulled hv hr hget fun e => hne (Option.some.inj e)] at hc
  have hn := (hc rfl).1 name
  rw [hg] at hn
  change ((t.table.update name none).get name).join = some old at hn
  rw [Chained.get_update _ _ _ _ (by rw [hget]; simp), if_pos rfl] at hn
  exact absurd hn (by simp)

/-- **A failing `nvram_set`** changes nothing, except when `realloc` fails for a tuple that has
another value: that value is gone, and the tuple has a NULL. -/
theorem failsClean_iff {h : Handle} {t : Nvram.Handle host} (hs : Sim h t) (mem : Mem)
    (name value : CStr) : FailsClean host mem h name value ↔
      ¬ (value.length + 1 ≤ h.length - h.offset ∧ mem.realloc = false ∧
        ∃ old, nvramGet host h name = some (some old) ∧ old ≠ value) := by
  constructor
  · rintro hc ⟨hv, hr, old, hg, hne⟩
    exact hne (hc.kept hs hv hr hg)
  rw [hs.failsClean, hs.space, sim_get hs]
  simp only [Option.some.injEq]
  intro hn hneg
  by_cases hc : value.length + 1 ≤ t.space ∧ mem.realloc = false ∧
      ∃ old, t.table.get name = some old ∧ old ≠ some value
  · -- the tuple had a NULL already
    obtain ⟨hv, hr, old, hg, ho⟩ := hc
    rw [nvramSet_nulled hv hr hg ho]
    have hnull : old = none := by
      by_contra hold
      obtain ⟨x, rfl⟩ := Option.ne_none_iff_exists'.mp hold
      exact hn ⟨hv, hr, x, by rw [Nvram.nvramGet, hg]; rfl, fun e => ho (congrArg some e)⟩
    rw [hnull] at hg
    refine ⟨fun k => ?_, fun ht => absurd rfl (ht name none hg).1⟩
    show ((t.table.update name none).get k).join = _
    rw [Chained.get_update _ _ _ _ (by rw [hg]; simp), Nvram.nvramGet]
    by_cases hk : k = name
    · rw [if_pos hk, hk, hg]
    · rw [if_neg hk]
  · rcases nvramSet_other hc with he | he
    · rw [he]
      exact ⟨fun _ => rfl, id⟩
    · rw [he] at hneg
      exact absurd hneg (by decide)

/-- the variables `x` and `y` -/
def nameX : CStr := CStr.lit ['x'] (by decide)
def nameY : CStr := CStr.lit ['y'] (by decide)

/-- an NVRAM with `x=x` -/
theorem run_set_x : ∃ (h : Handle) (t : Nvram.Handle littleHost),
    run littleHost [.set nameX nameX] (Handle.zero 32768 0) = some h ∧ Sim h t ∧
      h.length - h.offset = 32768 ∧ nvramGet littleHost h nameX = some (some nameX) ∧
      nvramGet littleHost h nameY = some none := by
  obtain ⟨h, t, he, hs, hsp, -, hg⟩ := @sim_run littleHost [.set nameX nameX] _ _
    (sim_zero 32768 0) (soundFor_empty _)
  have hz : (⟨0, List.replicate 32768 0, 0, Chained.empty, []⟩ : Nvram.Handle littleHost).space
      = 32768 := (sim_zero 32768 0).space.symm
  rw [hz] at hsp hg
  refine ⟨h, t, he, hs, hs.space.trans hsp, ?_, ?_⟩
  · rw [sim_get hs, hg]
    rfl
  · rw [sim_get hs, hg]
    rfl

/-- a new variable and no memory -/
theorem failsClean_new : ∃ h, FailsClean littleHost ⟨false, false⟩ h nameY nameX := by
  obtain ⟨h, t, -, hs, -, -, hb⟩ := run_set_x
  refine ⟨h, (failsClean_iff hs ⟨false, false⟩ nameY nameX).mpr ?_⟩
  rintro ⟨-, -, old, hg, -⟩
  rw [hb] at hg
  exact absurd hg (by simp)

/-- another value for `x`, and `realloc` fails -/
theorem failsClean_lost : ∃ h, run littleHost [.set nameX nameX] (Handle.zero 32768 0) = some h ∧
    ¬ FailsClean littleHost ⟨true, false⟩ h nameX nameY := by
  obtain ⟨h, t, he, hs, hsp, ha, -⟩ := run_set_x
  refine ⟨h, he, fun hc => ?_⟩
  exact absurd (hc.kept hs (by rw [hsp]; decide) rfl ha) (by decide)

end Nvram.Heap
