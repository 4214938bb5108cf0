import Firmware.Lib.Links

/-!
# A queue with two ends in memory

Nodes with a pointer to the next and to the previous one, a queue with a pointer to its first and one
to its last node.  `popFront` leaves the pointer to the last node as it is, so that it points to a
freed node once the queue is empty.  `none` is an access to such a node.

* `pushFront`, `pushBack`, `popFront`, `front`, `setFront`, `next` the operations;
* `Holds q l`    the values of `q` are those of `l`;
* `Ended q l`    and the pointer to the last node is right, which `pushBack` needs;
* `Rest q l`     the values that `next` still has to give.
-/

set_option linter.unusedVariables false

namespace Deque
open Links

variable {α : Type}

/-- the data of a node: its value, and the pointer to the previous one -/
abbrev Nodes (α : Type) := Cells (α × Ptr)

structure Queue (α : Type) where
  nodes : Nodes α
  head : Ptr
  tail : Ptr
  curr : Ptr

def create : Queue α := ⟨[], none, none, none⟩

def pushFront (q : Queue α) (v : α) : Option (Queue α) := do
  let a := q.nodes.length
  let nodes ← match q.head with
    | none => some q.nodes
    | some h => do
      let n ← q.nodes.cell h
      some (q.nodes.set h (some ⟨(n.data.1, some a), n.next⟩))
  some { q with
    nodes := nodes ++ [some ⟨(v, none), q.head⟩]
    head := some a
    tail := if q.tail = none then some a else q.tail }

def pushBack (q : Queue α) (v : α) : Option (Queue α) := do
  let a := q.nodes.length
  let nodes ← match q.tail with
    | none => some q.nodes
    | some t => do
      let n ← q.nodes.cell t
      some (q.nodes.set t (some ⟨n.data, some a⟩))
  some { q with
    nodes := nodes ++ [some ⟨(v, q.tail), none⟩]
    tail := some a
    head := if q.head = none then some a else q.head }

/-- the inner `none` is NULL -/
def popFront (q : Queue α) : Option (Option α × Queue α) :=
  match q.head with
  | none => some (none, q)
  | some a => do
    let n ← q.nodes.cell a
    let nodes ← match n.next with
      | none => some q.nodes
      | some b => do
        let n ← q.nodes.cell b
        some (q.nodes.set b (some ⟨(n.data.1, none), n.next⟩))
    some (some n.data.1, { q with nodes := nodes.set a none, head := n.next })

def front (q : Queue α) : Option (Option α) :=
  match q.head with
  | none => some none
  | some a => (q.nodes.cell a).map fun n => some n.data.1

/-- a write through the pointer that `front` gives -/
def setFront (q : Queue α) (v : α) : Option (Queue α) := do
  let a ← q.head
  let n ← q.nodes.cell a
  some { q with nodes := q.nodes.set a (some ⟨(v, n.data.2), n.next⟩) }

def resetIterator (q : Queue α) : Queue α := { q with curr := q.head }

def getNext (q : Queue α) : Option (Option α × Queue α) :=
  match q.curr with
  | none => some (none, q)
  | some a => (q.nodes.cell a).map fun n => (some n.data.1, { q with curr := n.next })

/-! ## Chains -/

/-- the nodes from `p` on; the pointers back do not matter -/
def Chain (m : Nodes α) : Ptr → List (Nat × α) → Prop
  | p, [] => p = none
  | p, (a, v) :: l => p = some a ∧ ∃ b q, m.cell a = some ⟨(v, b), q⟩ ∧ Chain m q l

theorem Chain.frame {m m' : Nodes α} {p : Ptr} {c : List (Nat × α)} (h : Chain m p c)
    (hm : ∀ a ∈ addrs c, ∀ v b q, m.cell a = some ⟨(v, b), q⟩ → ∃ b', m'.cell a = some ⟨(v, b'), q⟩) :
    Chain m' p c := by
  induction c generalizing p with
  | nil => exact h
  | cons e c ih =>
    obtain ⟨a, v⟩ := e
    obtain ⟨hp, b, q, hc, hl⟩ := h
    obtain ⟨b', hc'⟩ := hm a List.mem_cons_self v b q hc
    exact ⟨hp, b', q, hc', ih hl fun a' ha' => hm a' (List.mem_cons_of_mem a ha')⟩

theorem Chain.lt {m : Nodes α} {p : Ptr} {c : List (Nat × α)} (h : Chain m p c) :
    ∀ a ∈ addrs c, a < m.length := by
  induction c generalizing p with
  | nil => exact fun a ha => nomatch ha
  | cons e c ih =>
    obtain ⟨a, v⟩ := e
    obtain ⟨-, b, q, hc, hl⟩ := h
    intro a' ha'
    rcases List.mem_cons.mp ha' with rfl | ha'
    · exact Cells.lt_of_cell hc
    · exact ih hl a' ha'

/-- a new node does not matter to a chain -/
theorem Chain.append {m : Nodes α} {p : Ptr} {c : List (Nat × α)} (h : Chain m p c)
    (n : Cell (α × Ptr)) : Chain (m ++ [some n]) p c :=
  h.frame fun a ha v b q hc => ⟨b, by rw [Cells.cell_append n (h.lt a ha), hc]⟩

/-- nor does another pointer back -/
theorem Chain.setPrev {m : Nodes α} {p : Ptr} {c : List (Nat × α)} (h : Chain m p c) {a : Nat}
    {v : α} {b b' q : Ptr} (ha : m.cell a = some ⟨(v, b), q⟩) :
    Chain (m.set a (some ⟨(v, b'), q⟩)) p c := by
  refine h.frame fun a' ha' v' b'' q' hc => ?_
  by_cases e : a' = a
  · subst e
    rw [ha] at hc
    cases hc
    exact ⟨b', Cells.cell_set_self ha⟩
  · exact ⟨b'', by rw [Cells.cell_set_of_ne _ _ e, hc]⟩

/-- a node that is not in it is freed -/
theorem Chain.free {m : Nodes α} {p : Ptr} {c : List (Nat × α)} (h : Chain m p c) {a : Nat}
    (ha : a ∉ addrs c) : Chain (m.set a none) p c :=
  h.frame fun a' ha' v b q hc => ⟨b, by
    have hne : a' ≠ a := fun e => ha (e ▸ ha')
    rw [Cells.cell_set_of_ne _ _ hne, hc]⟩

structure Holds (q : Queue α) (l : List α) : Prop where
  chain : ∃ c, Chain q.nodes q.head c ∧ (addrs c).Nodup ∧ vals c = l

/-- no queue is longer than its memory -/
theorem Holds.length_le {q : Queue α} {l : List α} (h : Holds q l) : l.length ≤ q.nodes.length := by
  obtain ⟨c, hc, hn, rfl⟩ := h.chain
  have hs : addrs c ⊆ List.range q.nodes.length := fun a ha => List.mem_range.mpr (hc.lt a ha)
  have hle := (hn.subperm hs).length_le
  unfold addrs at hle
  rw [List.length_range, List.length_map] at hle
  unfold vals
  rwa [List.length_map]

/-- the last node of a chain -/
def lastOf (c : List (Nat × α)) : Ptr := (addrs c).getLast?

theorem addrs_snoc (c : List (Nat × α)) (a : Nat) (v : α) : addrs (c ++ [(a, v)]) = addrs c ++ [a] :=
  List.map_append

theorem lastOf_snoc (c : List (Nat × α)) (a : Nat) (v : α) : lastOf (c ++ [(a, v)]) = some a := by
  unfold lastOf
  rw [addrs_snoc]
  exact List.getLast?_concat

structure Ended (q : Queue α) (l : List α) : Prop where
  chain : ∃ c, Chain q.nodes q.head c ∧ (addrs c).Nodup ∧ vals c = l ∧ q.tail = lastOf c

theorem Ended.holds {q : Queue α} {l : List α} (h : Ended q l) : Holds q l := by
  obtain ⟨c, hc, hn, hv, -⟩ := h.chain
  exact ⟨c, hc, hn, hv⟩

theorem create_ended : Ended (create : Queue α) [] := ⟨[], rfl, List.nodup_nil, rfl, rfl⟩

theorem pushFront_holds {q : Queue α} {l : List α} (h : Holds q l) (v : α) :
    ∃ q', pushFront q v = some q' ∧ Holds q' (v :: l) := by
  obtain ⟨c, hc, hn, rfl⟩ := h.chain
  have hfresh : q.nodes.length ∉ addrs c := fun ha => Nat.lt_irrefl _ (hc.lt _ ha)
  have hnew : ∀ m : Nodes α, m.length = q.nodes.length → Chain m q.head c →
      Chain (m ++ [some ⟨(v, none), q.head⟩]) (some q.nodes.length) ((q.nodes.length, v) :: c) := by
    intro m hm hmc
    refine ⟨rfl, none, q.head, ?_, hmc.append _⟩
    rw [← hm]
    exact Cells.cell_append_self m _
  unfold pushFront
  cases hq : q.head with
  | none =>
    rw [hq] at hnew hc
    exact ⟨_, rfl, ⟨_, hnew _ rfl hc, List.nodup_cons.mpr ⟨hfresh, hn⟩, rfl⟩⟩
  | some a =>
    rw [hq] at hnew hc
    cases c with
    | nil => cases hc
    | cons e c =>
      obtain ⟨a', x⟩ := e
      obtain ⟨ha, b, p, hcell, hrest⟩ := id hc
      cases ha
      dsimp only
      rw [hcell]
      refine ⟨_, rfl, ⟨_, hnew _ (List.length_set ..) (hc.setPrev hcell), List.nodup_cons.mpr ⟨hfresh, hn⟩, rfl⟩⟩

theorem front_holds {q : Queue α} {l : List α} (h : Holds q l) : front q = some l.head? := by
  obtain ⟨c, hc, hn, rfl⟩ := h.chain
  unfold front
  cases c with
  | nil =>
    rw [show q.head = none from hc]
    rfl
  | cons e c =>
    obtain ⟨ha, b, p, hcell, -⟩ := hc
    rw [ha]
    dsimp only
    rw [hcell]
    rfl

theorem popFront_nil {q : Queue α} (h : Holds q []) : popFront q = some (none, q) := by
  obtain ⟨c, hc, hn, hv⟩ := h.chain
  rw [List.map_eq_nil_iff.mp hv] at hc
  unfold popFront
  rw [show q.head = none from hc]

theorem popFront_holds {q : Queue α} {v : α} {l : List α} (h : Holds q (v :: l)) :
    ∃ q', popFront q = some (some v, q') ∧ Holds q' l := by
  obtain ⟨c, hc, hn, hv⟩ := h.chain
  cases c with
  | nil => cases hv
  | cons e c =>
    obtain ⟨a, x⟩ := e
    obtain ⟨rfl, rfl⟩ := List.cons.inj hv
    obtain ⟨hhead, b, p, hcell, hrest⟩ := hc
    obtain ⟨ha, hnc⟩ := List.nodup_cons.mp hn
    unfold popFront
    rw [hhead]
    dsimp only
    rw [hcell, Option.bind_eq_bind, Option.bind_some]
    dsimp only
    cases hp : p with
    | none =>
      rw [hp] at hrest
      exact ⟨_, rfl, ⟨c, hrest.free ha, hnc, rfl⟩⟩
    | some b' =>
      rw [hp] at hrest
      cases c with
      | nil => cases hrest
      | cons e c =>
        obtain ⟨a', x'⟩ := e
        obtain ⟨hb, b'', p', hcell', hrest'⟩ := id hrest
        cases hb
        dsimp only
        rw [hcell']
        exact ⟨_, rfl, ⟨_, (hrest.setPrev hcell').free ha, hnc, rfl⟩⟩

theorem setFront_holds {q : Queue α} {v : α} {l : List α} (h : Holds q (v :: l)) (w : α) :
    ∃ q', setFront q w = some q' ∧ Holds q' (w :: l) := by
  obtain ⟨c, hc, hn, hv⟩ := h.chain
  cases c with
  | nil => cases hv
  | cons e c =>
    obtain ⟨a, x⟩ := e
    obtain ⟨rfl, rfl⟩ := List.cons.inj hv
    obtain ⟨hhead, b, p, hcell, hrest⟩ := hc
    obtain ⟨ha, hnc⟩ := List.nodup_cons.mp hn
    unfold setFront
    rw [hhead, Option.bind_eq_bind, Option.bind_some, hcell, Option.bind_eq_bind, Option.bind_some]
    refine ⟨_, rfl, ⟨(a, w) :: c, ⟨rfl, b, p, Cells.cell_set_self hcell, ?_⟩, hn, rfl⟩⟩
    refine hrest.frame fun a' ha' v b q hc => ⟨b, ?_⟩
    have hne : a' ≠ a := fun e => ha (e ▸ ha')
    rw [Cells.cell_set_of_ne _ _ hne, hc]

/-- a chain that goes on -/
theorem Chain.snoc {m : Nodes α} {p : Ptr} {c : List (Nat × α)} {a n : Nat} {v w : α} {b q : Ptr}
    (h : Chain m p (c ++ [(a, v)])) (hn : (addrs (c ++ [(a, v)])).Nodup)
    (ha : m.cell a = some ⟨(v, b), q⟩) {m' : Nodes α}
    (hm : ∀ a' ∈ addrs c, m'.cell a' = m.cell a') (ha' : m'.cell a = some ⟨(v, b), some n⟩)
    (hnew : ∃ b', m'.cell n = some ⟨(w, b'), none⟩) : Chain m' p (c ++ [(a, v)] ++ [(n, w)]) := by
  induction c generalizing p with
  | nil =>
    obtain ⟨hp, -⟩ := h
    obtain ⟨b', hn'⟩ := hnew
    exact ⟨hp, b, some n, ha', rfl, b', none, hn', rfl⟩
  | cons e c ih =>
    obtain ⟨a', x⟩ := e
    obtain ⟨hp, b', p', hc, hl⟩ := h
    exact ⟨hp, b', p', by rw [hm a' List.mem_cons_self, hc],
      ih hl (List.nodup_cons.mp hn).2 fun a'' ha'' => hm a'' (List.mem_cons_of_mem a' ha'')⟩

/-- the last node of a chain is a node -/
theorem Chain.last {m : Nodes α} {p : Ptr} {c : List (Nat × α)} {a : Nat} {v : α}
    (h : Chain m p (c ++ [(a, v)])) : ∃ b, m.cell a = some ⟨(v, b), none⟩ := by
  induction c generalizing p with
  | nil =>
    obtain ⟨-, b, q, hc, hq⟩ := h
    rw [show q = none from hq] at hc
    exact ⟨b, hc⟩
  | cons e c ih =>
    obtain ⟨-, b, q, -, hl⟩ := h
    exact ih hl

theorem pushBack_ended {q : Queue α} {l : List α} (h : Ended q l) (v : α) :
    ∃ q', pushBack q v = some q' ∧ Ended q' (l ++ [v]) := by
  obtain ⟨c, hc, hn, rfl, ht⟩ := h.chain
  have hfresh : q.nodes.length ∉ addrs c := fun ha => Nat.lt_irrefl _ (hc.lt _ ha)
  rcases List.eq_nil_or_concat' c with rfl | ⟨c, ⟨a, x⟩, rfl⟩
  · have htail : q.tail = none := ht
    have hhead : q.head = none := hc
    unfold pushBack
    rw [htail, hhead]
    refine ⟨_, rfl, ⟨[(q.nodes.length, v)], ⟨rfl, none, none, Cells.cell_append_self _ _, rfl⟩, ?_, rfl, rfl⟩⟩
    exact List.nodup_singleton _
  · have htail : q.tail = some a := by
      rw [ht]
      exact lastOf_snoc c a x
    obtain ⟨b, hcell⟩ := hc.last
    have hhead : q.head ≠ none := by
      intro h0
      rw [h0] at hc
      cases c with
      | nil => cases hc.1
      | cons e c => cases hc.1
    have hna : a ∉ addrs c := by
      rw [addrs_snoc] at hn
      exact fun hm => (List.disjoint_of_nodup_append hn) hm (by simp)
    have hold : ∀ a' ∈ addrs c, a' < q.nodes.length := fun a' ha' =>
      hc.lt a' (by rw [addrs_snoc]; exact List.mem_append_left _ ha')
    have hlen : (q.nodes.set a (some ⟨(x, b), some q.nodes.length⟩)).length = q.nodes.length := List.length_set
    unfold pushBack
    rw [htail]
    dsimp only
    rw [hcell, Option.bind_eq_bind, Option.bind_some, Option.bind_eq_bind, Option.bind_some, if_neg hhead]
    refine ⟨_, rfl, ⟨(c ++ [(a, x)]) ++ [(q.nodes.length, v)], ?_, ?_, ?_, ?_⟩⟩
    · refine hc.snoc hn hcell (fun a' ha' => ?_) ?_ ?_
      · have hne : a' ≠ a := fun e => hna (e ▸ ha')
        rw [Cells.cell_append _ (by rw [hlen]; exact hold a' ha'), Cells.cell_set_of_ne _ _ hne]
      · rw [Cells.cell_append _ (by rw [hlen]; exact Cells.lt_of_cell hcell)]
        exact Cells.cell_set_self hcell
      · have e := Cells.cell_append_self (q.nodes.set a (some ⟨(x, b), some q.nodes.length⟩))
          ⟨(v, some a), none⟩
        rw [hlen] at e
        exact ⟨some a, e⟩
    · rw [addrs_snoc]
      refine List.nodup_append.mpr ⟨hn, List.nodup_singleton _, fun y hy z hz => ?_⟩
      rw [List.mem_singleton.mp hz]
      exact fun e => hfresh (e ▸ hy)
    · exact List.map_append
    · exact (lastOf_snoc _ _ _).symm

/-! ## The iterator -/

structure Rest (q : Queue α) (l : List α) : Prop where
  chain : ∃ c, Chain q.nodes q.curr c ∧ vals c = l

theorem resetIterator_rest {q : Queue α} {l : List α} (h : Holds q l) : Rest (resetIterator q) l := by
  obtain ⟨c, hc, -, hv⟩ := h.chain
  exact ⟨c, hc, hv⟩

theorem getNext_nil {q : Queue α} (h : Rest q []) : getNext q = some (none, q) := by
  obtain ⟨c, hc, hv⟩ := h.chain
  rw [List.map_eq_nil_iff.mp hv] at hc
  unfold getNext
  rw [show q.curr = none from hc]

theorem getNext_rest {q : Queue α} {v : α} {l : List α} (h : Rest q (v :: l)) :
    ∃ q', getNext q = some (some v, q') ∧ Rest q' l := by
  obtain ⟨c, hc, hv⟩ := h.chain
  cases c with
  | nil => cases hv
  | cons e c =>
    obtain ⟨a, x⟩ := e
    obtain ⟨rfl, rfl⟩ := List.cons.inj hv
    obtain ⟨hcurr, b, p, hcell, hrest⟩ := hc
    unfold getNext
    rw [hcurr]
    dsimp only
    rw [hcell]
    exact ⟨_, rfl, ⟨c, hrest, rfl⟩⟩

end Deque
