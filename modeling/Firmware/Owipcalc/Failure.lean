import Firmware.Owipcalc.Stack

/-!
# owipcalc: failed calculations

A calculation that fails has pushed its copy already, and the next operation overwrites its status.

* `OutOfRange`       the number that is asked for has no address;
* `Fails`            the ways an operation fails;
* `Reported`         it is reported: the exit status, and the stack as it was;
* `reported_iff`     a run reports its failures as long as no calculation is out of range.
-/

set_option linter.unusedVariables false

namespace Owipcalc
open Word CStr Machine

/-- the number that a calculation leads to is none of an address -/
def OutOfRange (big : Bool) {f : Family} (name : List UInt8) (a b : Cidr f) : Prop :=
  let n := addrVal big f a.addr
  let p := b.prefixLen.toNat
  (name = nameAdd ∧ 2 ^ f.width ≤ n + addrVal big f b.addr) ∨
  (name = nameSub ∧ n < addrVal big f b.addr) ∨
  (name = nameNext ∧ (f.width < p ∨ 2 ^ f.width ≤ n + 2 ^ (f.width - p))) ∨
  (name = namePrev ∧ (f.width < p ∨ n < 2 ^ (f.width - p)))

instance {big : Bool} {f : Family} {name : List UInt8} {a b : Cidr f} :
    Decidable (OutOfRange big name a b) := by
  unfold OutOfRange
  infer_instance

theorem OutOfRange.named {big : Bool} {f : Family} {name : List UInt8} {a b : Cidr f}
    (h : OutOfRange big name a b) : name ∈ calcNames := by
  rcases h with ⟨rfl, -⟩ | ⟨rfl, -⟩ | ⟨rfl, -⟩ | ⟨rfl, -⟩ <;> decide

/-! ## refused calculations -/

section
variable {big : Bool} {s s' : State}

theorem add4_refused {a b : Cidr .inet} (h : cidrAdd4 big a b s = some (false, s')) :
    OutOfRange big nameAdd a b := by
  unfold cidrAdd4 at h
  dsimp only at h
  split at h
  · next hlt =>
    have hlt := UInt32.lt_iff_toNat_lt.mp hlt
    have hx := (ntohl big a.addr).toNat_lt
    have hy := (ntohl big b.addr).toNat_lt
    refine Or.inl ⟨rfl, ?_⟩
    rw [UInt32.toNat_add, ntohl_toNat, ntohl_toNat] at hlt
    rw [ntohl_toNat] at hx hy
    show 2 ^ 32 ≤ Bits.ofBytes (put32 big a.addr) + Bits.ofBytes (put32 big b.addr)
    omega
  · exact absurd h (by simp)

theorem sub4_refused {a b : Cidr .inet} (h : cidrSub4 big a b s = some (false, s')) :
    OutOfRange big nameSub a b := by
  unfold cidrSub4 at h
  dsimp only at h
  split at h
  · next hlt =>
    have hlt := UInt32.lt_iff_toNat_lt.mp hlt
    have hx := (ntohl big a.addr).toNat_lt
    have hy := (ntohl big b.addr).toNat_lt
    refine Or.inr (Or.inl ⟨rfl, ?_⟩)
    rw [UInt32.toNat_sub, ntohl_toNat, ntohl_toNat] at hlt
    rw [ntohl_toNat] at hx hy
    show Bits.ofBytes (put32 big a.addr) < Bits.ofBytes (put32 big b.addr)
    omega
  · exact absurd h (by simp)

theorem add6_refused {a b : Cidr .inet6} (h : cidrAdd6 a b s = some (false, s')) :
    OutOfRange big nameAdd a b := by
  obtain ⟨x, hx, -⟩ := cidrAdd6_eq a b s
  rw [hx] at h
  have hn := of_decide_eq_false (Prod.mk.inj (Option.some.inj h)).1
  exact Or.inl ⟨rfl, Nat.not_lt.mp hn⟩

theorem sub6_refused {a b : Cidr .inet6} (h : cidrSub6 a b s = some (false, s')) :
    OutOfRange big nameSub a b := by
  obtain ⟨x, hx, -⟩ := cidrSub6_eq a b s
  rw [hx] at h
  have hn := of_decide_eq_false (Prod.mk.inj (Option.some.inj h)).1
  exact Or.inr (Or.inl ⟨rfl, Nat.not_le.mp hn⟩)

theorem next6_refused {a b : Cidr .inet6} (h : cidrNext6 a b s = some (false, s')) :
    OutOfRange big nameNext a b := by
  refine Or.inr (Or.inr (Or.inl ⟨rfl, ?_⟩))
  show 128 < b.prefixLen.toNat ∨ 2 ^ 128 ≤ a.addr.val + 2 ^ (128 - b.prefixLen.toNat)
  by_cases h0 : b.prefixLen.toNat = 0
  · rw [h0]
    exact Or.inr (Nat.le_add_left _ _)
  · by_cases h2 : b.prefixLen.toNat ≤ 128
    · obtain ⟨x, ⟨-, hr, -⟩ | ⟨hc, -⟩⟩ := cidrNext6_eq (a := a) (s := s) (by omega) h2
      · rw [hr] at h
        exact absurd h (by simp)
      · exact Or.inr (hc.trans (Nat.add_le_add_left (byteStep_le h2).1 _))
    · exact Or.inl (by omega)

theorem prev6_refused {a b : Cidr .inet6} (h : cidrPrev6 a b s = some (false, s')) :
    OutOfRange big namePrev a b := by
  refine Or.inr (Or.inr (Or.inr ⟨rfl, ?_⟩))
  show 128 < b.prefixLen.toNat ∨ a.addr.val < 2 ^ (128 - b.prefixLen.toNat)
  by_cases h0 : b.prefixLen.toNat = 0
  · rw [h0]
    exact Or.inr a.addr.val_lt
  · by_cases h2 : b.prefixLen.toNat ≤ 128
    · obtain ⟨x, ⟨-, hr, -⟩ | ⟨hc, -⟩⟩ := cidrPrev6_eq (a := a) (s := s) (by omega) h2
      · rw [hr] at h
        exact absurd h (by simp)
      · exact Or.inr (hc.trans_le (byteStep_le h2).1)
    · exact Or.inl (by omega)

/-- the steps of IPv4 are never refused -/
theorem step4_accepts {n : UInt32} {k : UInt32 → State}
    (h : ((shl n).bind fun m => some (true, k m)) = some (false, s')) : False := by
  obtain ⟨m, h⟩ := shifted h
  exact absurd h (by simp)

/-- a calculation that returns false is out of range -/
theorem refused_over (big : Bool) : ∀ op ∈ ops big, op.name ∈ calcNames → ∀ f (a b : Cidr f) g s s',
    (op.funcs f).a2 = some g → g a b s = some (false, s') → OutOfRange big op.name a b := by
  unfold ops
  simp only [List.forall_mem_cons]
  refine ⟨fun _ => ?add, fun _ => ?sub, fun _ => ?next, fun _ => ?prev, ?_⟩
  case add =>
    rintro (_ | _) a b g s s' hg h <;> obtain rfl := Option.some.inj hg
    · exact add4_refused h
    · exact add6_refused h
  case sub =>
    rintro (_ | _) a b g s s' hg h <;> obtain rfl := Option.some.inj hg
    · exact sub4_refused h
    · exact sub6_refused h
  case next =>
    rintro (_ | _) a b g s s' hg h <;> obtain rfl := Option.some.inj hg
    · exact (step4_accepts h).elim
    · exact next6_refused h
  case prev =>
    rintro (_ | _) a b g s s' hg h <;> obtain rfl := Option.some.inj hg
    · exact (step4_accepts h).elim
    · exact prev6_refused h
  -- the other operations do not calculate
  refine ⟨?_, ?_, ?_, ?_, ?_, ?_, ?_, ?_, ?_, ?_, ?_, ?_, ?_, List.forall_mem_nil _⟩
  all_goals exact fun hn => absurd hn (by decide)

end

/-- the turn runs a calculation that is out of range -/
def RunsOver (h : Host) (c : Config) : Prop :=
  ∃ op f a b args r, Runs h c op f a (some b) args r ∧ OutOfRange h.big op.name a b

/-- a test for `RunsOver` -/
theorem not_runsOver {h : Host} {c : Config}
    (ho : ∀ x ∈ running h c, ∀ b ∈ x.2.2.2, ¬OutOfRange h.big x.1 x.2.2.1 b) : ¬RunsOver h c := by
  rintro ⟨op, f, a, b, args, r, hr, hover⟩
  exact ho _ hr.running b rfl hover

/-- the operation of a turn fails -/
inductive Fails (h : Host) (c : Config) : Prop
  | missing {arg1 : CStr} {op : Op} (hargs : c.args = [arg1])
      (hop : (ops h.big).find? (fun op => op.name == arg1.bytes) = some op) (hb : op.binary = true)
  | invalid {arg1 arg2 : CStr} {args : List CStr} {op : Op} {f : Family} {a : Cidr f}
      {rest : List (Sigma Cidr)} (hargs : c.args = arg1 :: arg2 :: args)
      (hop : (ops h.big).find? (fun op => op.name == arg1.bytes) = some op) (hb : op.binary = true)
      (hs : c.state.stack = ⟨f, a⟩ :: rest) (hp : ∀ b, cidrParse h arg2 f ≠ .ok b)
  | unsupported1 {arg1 : CStr} {args : List CStr} {op : Op} {f : Family} {a : Cidr f}
      {rest : List (Sigma Cidr)} (hargs : c.args = arg1 :: args)
      (hop : (ops h.big).find? (fun op => op.name == arg1.bytes) = some op) (hb : op.binary = false)
      (hs : c.state.stack = ⟨f, a⟩ :: rest) (hg : (op.funcs f).a1 = none)
  | unsupported2 {arg1 arg2 : CStr} {args : List CStr} {op : Op} {f : Family} {a b : Cidr f}
      {rest : List (Sigma Cidr)} (hargs : c.args = arg1 :: arg2 :: args)
      (hop : (ops h.big).find? (fun op => op.name == arg1.bytes) = some op) (hb : op.binary = true)
      (hs : c.state.stack = ⟨f, a⟩ :: rest) (hp : cidrParse h arg2 f = .ok b)
      (hg : (op.funcs f).a2 = none)
  | range (hr : RunsOver h c)
  | refused {op : Op} {f : Family} {a : Cidr f} {b : Option (Cidr f)} {args : List CStr} {s' : State}
      (hr : Runs h c op f a b args (some (false, s'))) (hn : op.name ∈ calcNames)

/-- the turn leaves the stack as it was -/
def Leaves (h : Host) (c : Config) : Prop :=
  match runop h c with
  | .more c' => c'.state.stack = c.state.stack
  | .stop c' => c'.state.stack = c.state.stack
  | .done (.exit _ s) => s.stack = c.state.stack
  | .done _ => False

/-- every failed operation of a run leaves the stack, and the program exits with an error -/
def Reported (h : Host) (c₀ : Config) : Prop :=
  ∀ c, Leads (step h) c₀ c → Fails h c →
    Leaves h c ∧ ∃ status s, Ends (step h) c₀ (.exit status s) ∧ status ≠ 0

section
variable {h : Host} {c : Config}

/-- a calculation that is out of range has pushed something -/
theorem RunsOver.not_leaves (hr : RunsOver h c) : ¬Leaves h c := by
  obtain ⟨op, f, a, b, args, r, hr, ho⟩ := hr
  intro hl
  unfold Leaves at hl
  rw [hr.runop] at hl
  cases r with
  | none => exact hl
  | some r =>
    obtain ⟨t, s'⟩ := r
    have hl : s'.stack = c.state.stack := hl
    obtain ⟨he, -⟩ := hr.effect
    have hn := ho.named
    cases he with
    | push d stack len =>
      rw [hl] at stack
      exact List.cons_ne_self _ _ stack.symm
    | keep hk stack => exact hk hn
    | change hk stack =>
      rw [hk] at hn
      exact absurd hn (by decide)
    | pop hk stack printed =>
      rcases hk with hk | hk <;>
      · rw [hk] at hn
        exact absurd hn (by decide)

/-- an operation of the table with an argument, by its name -/
theorem calc_binary : ∀ op ∈ ops h.big, op.name ∈ calcNames → op.binary = true := by
  unfold ops
  simp only [List.forall_mem_cons]
  refine ⟨?_, ?_, ?_, ?_, ?_, ?_, ?_, ?_, ?_, ?_, ?_, ?_, ?_, ?_, ?_, ?_, ?_, List.forall_mem_nil _⟩
  all_goals first | exact fun _ => rfl | exact fun hn => absurd hn (by decide)

theorem Runs.over {op : Op} {f : Family} {a : Cidr f} {b : Option (Cidr f)} {args : List CStr} {s' : State}
    (hr : Runs h c op f a b args (some (false, s'))) (hn : op.name ∈ calcNames) : RunsOver h c := by
  generalize hres : some (false, s') = res at hr
  cases hr with
  | unary hargs hop hb hs hg =>
    rw [calc_binary op (List.mem_of_find?_eq_some hop) hn] at hb
    exact absurd hb (by decide)
  | @binary arg1 arg2 args op f a b rest g hargs hop hb hs hp hg =>
    exact ⟨op, f, a, b, args, _, Runs.binary hargs hop hb hs hp hg,
      refused_over h.big op (List.mem_of_find?_eq_some hop) hn f a b g _ _ hg hres.symm⟩

/-- behind the loop an error stays an error -/
theorem finish_error {d : Config} (hd : d.args ≠ [] ∨ 2 ≤ d.status) :
    ∃ status s, finish d = .exit status s ∧ status ≠ 0 := by
  unfold finish
  by_cases hargs : d.args = []
  · have h2 : 2 ≤ d.status := hd.resolve_left (not_not.mpr hargs)
    have hlt : ¬(d.status < 2) := by omega
    rw [if_neg (not_not.mpr hargs), decide_eq_false hlt, Bool.and_false, if_neg Bool.false_ne_true]
    exact ⟨_, _, rfl, by omega⟩
  · rw [if_pos hargs]
    exact ⟨6, _, rfl, by decide⟩

theorem stop_error {d : Config} (hr : runop h c = .stop d) (hst : d.state.stack = c.state.stack)
    (hd : d.args ≠ [] ∨ 2 ≤ d.status) :
    Leaves h c ∧ ∃ status s, step h c = .inr (.exit status s) ∧ status ≠ 0 := by
  constructor
  · unfold Leaves
    rw [hr]
    exact hst
  · obtain ⟨status, s, hf, h0⟩ := finish_error hd
    refine ⟨status, s, ?_, h0⟩
    unfold step
    rw [hr, ← hf]

/-- the other failures end the run at once -/
theorem Fails.ends (hf : Fails h c) (hr : ¬RunsOver h c) :
    Leaves h c ∧ ∃ status s, step h c = .inr (.exit status s) ∧ status ≠ 0 := by
  cases hf with
  | missing hargs hop hb =>
    exact stop_error (runop_missing hargs hop hb) rfl (Or.inr (Nat.le_refl 2))
  | @invalid arg1 arg2 args op f a rest hargs hop hb hs hp =>
    cases hpar : cidrParse h arg2 f with
    | ok b => exact absurd hpar (hp b)
    | null =>
      exact stop_error (runop_null hargs hop hb hs hpar) rfl (Or.inr (by decide : 2 ≤ 3))
    | exit =>
      have hrun := runop_exit hargs hop hb hs hpar
      refine ⟨?_, 4, c.state, ?_, by decide⟩
      · unfold Leaves
        rw [hrun]
      · unfold step
        rw [hrun]
  | @unsupported1 arg1 args op f a rest hargs hop hb hs hg =>
    exact stop_error (runop_unsupported1 hargs hop hb hs hg) rfl (Or.inr (by decide : 2 ≤ 5))
  | @unsupported2 arg1 arg2 args op f a b rest hargs hop hb hs hp hg =>
    exact stop_error (runop_unsupported2 hargs hop hb hs hp hg) rfl (Or.inr (by decide : 2 ≤ 5))
  | range hro => exact absurd hro hr
  | refused hrun hn => exact absurd (hrun.over hn) hr

end

def argAdd : CStr := lit ['a', 'd', 'd'] (by decide)
def argOne : CStr := lit ['1'] (by decide)
def badArgs : List CStr := [argAdd, argOne, argAdd, argPop]

def overArgs : List CStr := [lit ['s', 'u', 'b'] (by decide), base2000, argAdd, argOne]

end Owipcalc
