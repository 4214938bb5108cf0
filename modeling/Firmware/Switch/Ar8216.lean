import Mathlib.Data.Finset.Basic
import Mathlib.Logic.Function.Basic

/-!
# ar8216

The VLAN configuration of the driver `ar8216.c`.  Whether a port is tagged is one bit per port,
the members are a mask per VLAN.

* `setPorts`, `setPvid`, `setVid`, `resetSwitch`   the calls from swconfig;
* `hwApply`, `portmask`   what is written to the switch: the masks of the ports each port reaches;
* `Inv`                   an untagged port is in one VLAN at most;
* `run_isolates`          so the masks keep untagged ports of different VLANs apart.
-/

set_option linter.unusedVariables false

namespace Ar8216

def maxVlans : Nat := 128
def maxPorts : Nat := 8
def portCpu : Nat := 0

def eInval : Int := -22

/-- `struct switch_dev`: a chip has no more ports and VLANs than the driver has room for -/
structure SwitchDev where
  ports : Nat
  vlans : Nat
  ports_le : ports ≤ maxPorts
  vlans_le : vlans ≤ maxVlans

structure SwitchPort where
  id : Nat
  flags : BitVec 32

/-- `SWITCH_PORT_FLAG_TAGGED` -/
def flagTagged : Nat := 2

def SwitchPort.tagged (p : SwitchPort) : Bool := p.flags.getLsbD flagTagged

/-- the fields of `struct ar8xxx_priv` that are cleared on reset, without those of the mirror -/
structure Priv where
  vlan : Bool
  vlanId : Nat → BitVec 16
  vlanTable : Nat → BitVec 8
  vlanTagged : BitVec 8
  pvid : Nat → BitVec 16

/-- `1 << i` in a `u8` -/
def bit (i : Nat) : BitVec 8 := (1 : BitVec 8) <<< i

/-! ## the calls -/

def setPvid (dev : SwitchDev) (port vlan : Int) (s : Priv) : Int × Priv :=
  if vlan < 0 ∨ vlan ≥ dev.vlans ∨ port < 0 ∨ port ≥ maxPorts then (eInval, s)
  else (0, { s with pvid := Function.update s.pvid port.toNat (BitVec.ofInt 16 vlan) })

def setVid (portVlan : Nat) (value : Nat) (s : Priv) : Int × Priv :=
  if portVlan ≥ maxVlans then (eInval, s)
  else (0, { s with vlanId := Function.update s.vlanId portVlan (BitVec.ofNat 16 value) })

/-- an untagged port is removed from the other VLANs -/
def removePort (portVlan id : Nat) (t : Nat → BitVec 8) : Nat → BitVec 8 :=
  (List.range maxVlans).foldl
    (fun t j => if j = portVlan then t else Function.update t j (t j &&& ~~~bit id)) t

/-- one round of the loop of `setPorts` -/
def setPort (portVlan : Nat) (s : Priv) (p : SwitchPort) : Priv :=
  let s :=
    if p.tagged then { s with vlanTagged := s.vlanTagged ||| bit p.id }
    else
      { s with
        vlanTagged := s.vlanTagged &&& ~~~bit p.id
        pvid := Function.update s.pvid p.id (BitVec.ofNat 16 portVlan)
        vlanTable := removePort portVlan p.id s.vlanTable }
  { s with vlanTable := Function.update s.vlanTable portVlan (s.vlanTable portVlan ||| bit p.id) }

def setPorts (portVlan : Nat) (ports : List SwitchPort) (s : Priv) : Int × Priv :=
  (0, ports.foldl (setPort portVlan)
    { s with vlanTable := Function.update s.vlanTable portVlan 0 })

/-- the state `ar8xxx_sw_reset_switch` leaves -/
def resetSwitch : Priv where
  vlan := false
  vlanId := fun i => if i < maxVlans then BitVec.ofNat 16 i else 0
  vlanTable := fun _ => 0
  vlanTagged := 0
  pvid := fun _ => 0

/-! ## what is written to the switch -/

/-- the ports of one VLAN reach each other -/
def vlanMask (dev : SwitchDev) (vp : BitVec 8) (m : Nat → BitVec 8) : Nat → BitVec 8 :=
  (List.range dev.ports).foldl
    (fun m i => if vp &&& bit i ≠ 0 then Function.update m i (m i ||| (vp &&& ~~~bit i)) else m) m

/-- the port destination masks; with `init` every port reaches the CPU port only -/
def portmask (dev : SwitchDev) (init : Bool) (s : Priv) : Nat → BitVec 8 :=
  if init then
    (List.range dev.ports).foldl
      (fun m i =>
        if i = portCpu then m
        else
          let m := Function.update m i (bit portCpu)
          Function.update m portCpu (m portCpu ||| bit i)) fun _ => 0
  else
    (List.range maxVlans).foldl
      (fun m j => if s.vlanTable j = 0 then m else vlanMask dev (s.vlanTable j) m) fun _ => 0

/-- the calls to the chip -/
inductive Call where
  | vtuFlush
  | vtuLoadVlan (vid : BitVec 16) (ports : BitVec 8)
  | setupPort (port : Nat) (members : BitVec 8)
  | setMirrorRegs
  | setAgeTime

def hwApply (dev : SwitchDev) (init : Bool) (s : Priv) : List Call :=
  [.vtuFlush] ++
  (if init then []
  else
    ((List.range maxVlans).filter fun j => s.vlanTable j ≠ 0).map fun j =>
      .vtuLoadVlan (s.vlanId j) (s.vlanTable j)) ++
  (List.range dev.ports).map (fun i => .setupPort i (portmask dev init s i)) ++
  [.setMirrorRegs, .setAgeTime]

/-! ## runs -/

inductive Op where
  | setPorts (portVlan : Nat) (ports : List SwitchPort)
  | setPvid (port vlan : Int)
  | setVid (portVlan value : Nat)

/-- what swconfig checks before it calls -/
def Op.Valid (dev : SwitchDev) : Op → Prop
  | .setPorts portVlan ports => portVlan < dev.vlans ∧ ∀ p ∈ ports, p.id < dev.ports
  | _ => True

instance (dev : SwitchDev) : (op : Op) → Decidable (op.Valid dev)
  | .setPorts _ _ => inferInstanceAs (Decidable (_ ∧ _))
  | .setPvid _ _ => inferInstanceAs (Decidable True)
  | .setVid _ _ => inferInstanceAs (Decidable True)

def step (dev : SwitchDev) (s : Priv) : Op → Priv
  | .setPorts portVlan ports => (setPorts portVlan ports s).2
  | .setPvid port vlan => (setPvid dev port vlan s).2
  | .setVid portVlan value => (setVid portVlan value s).2

def run (dev : SwitchDev) (s : Priv) (ops : List Op) : Priv := ops.foldl (step dev) s

/-! ## one call -/

/-- port `p` is in VLAN `j` -/
def Member (s : Priv) (j p : Nat) : Prop := (s.vlanTable j).getLsbD p = true

def Tagged (s : Priv) (p : Nat) : Prop := s.vlanTagged.getLsbD p = true

theorem bit_getLsbD {i : Nat} (h : i < maxPorts) (p : Nat) :
    (bit i).getLsbD p = decide (p = i) := by
  have hi : i < 8 := h
  unfold bit
  rw [BitVec.getLsbD_shiftLeft, show (1 : BitVec 8) = 1#8 from rfl, BitVec.getLsbD_one]
  by_cases hp : p = i
  · subst hp
    simp [hi]
  · by_cases hlt : p < i
    · simp [hp, hlt]
    · simp [hp, show ¬ p - i = 0 by omega]

theorem and_bit_ne_zero {i : Nat} (h : i < maxPorts) (w : BitVec 8) :
    w &&& bit i ≠ 0 ↔ w.getLsbD i = true := by
  constructor
  · intro hne
    by_contra hw
    refine hne (BitVec.eq_of_getLsbD_eq fun p _ => ?_)
    rw [BitVec.getLsbD_and, bit_getLsbD h, show (0 : BitVec 8) = 0#8 from rfl, BitVec.getLsbD_zero]
    by_cases hp : p = i
    · subst hp
      simpa using hw
    · simp [hp]
  · intro hw h0
    have hbit : (w &&& bit i).getLsbD i = true := by
      rw [BitVec.getLsbD_and, bit_getLsbD h]
      simp [hw]
    rw [h0, show (0 : BitVec 8) = 0#8 from rfl, BitVec.getLsbD_zero] at hbit
    cases hbit

theorem getLsbD_clear {i p : Nat} (h : i < maxPorts) (hp : p < maxPorts) (w : BitVec 8) :
    (w &&& ~~~bit i).getLsbD p = (w.getLsbD p && decide (p ≠ i)) := by
  have hp' : p < 8 := hp
  rw [BitVec.getLsbD_and, BitVec.getLsbD_not, bit_getLsbD h]
  simp [hp']

/-- a loop that changes some entries of a table -/
theorem foldl_update {α : Type} (c : Nat → Prop) [DecidablePred c] (f : Nat → α → α) (n : Nat)
    (t : Nat → α) (k : Nat) :
    (List.range n).foldl (fun t j => if c j then Function.update t j (f j (t j)) else t) t k =
      if k < n ∧ c k then f k (t k) else t k := by
  induction n with
  | zero => simp
  | succ n ih =>
    rw [List.range_succ, List.foldl_append, List.foldl_cons, List.foldl_nil]
    generalize (List.range n).foldl
      (fun t j => if c j then Function.update t j (f j (t j)) else t) t = t' at ih ⊢
    by_cases hk : k = n
    · subst hk
      rw [if_neg (by omega)] at ih
      by_cases hc : c k
      · rw [if_pos hc, Function.update_self, if_pos ⟨Nat.lt_succ_self k, hc⟩, ih]
      · rw [if_neg hc, if_neg fun h => hc h.2, ih]
    · have hlt : k < n + 1 ↔ k < n := by omega
      have h' : (if c n then Function.update t' n (f n (t' n)) else t') k = t' k := by
        by_cases hc : c n
        · rw [if_pos hc, Function.update_of_ne hk]
        · rw [if_neg hc]
      rw [h', ih]
      simp only [hlt]

theorem removePort_apply (portVlan id : Nat) (t : Nat → BitVec 8) (j : Nat) :
    removePort portVlan id t j =
      if j < maxVlans ∧ j ≠ portVlan then t j &&& ~~~bit id else t j := by
  unfold removePort
  rw [← foldl_update (fun j => j ≠ portVlan) (fun _ w => w &&& ~~~bit id)]
  simp only [ite_not]

/-! ## the invariant -/

/-- an untagged port is in one VLAN at most, and the VLANs have ports of the switch -/
structure Inv (dev : SwitchDev) (s : Priv) : Prop where
  untagged : ∀ p i j, ¬ Tagged s p → i < maxVlans → j < maxVlans → Member s i p → Member s j p →
    i = j
  ports : ∀ j p, j < maxVlans → Member s j p → p < dev.ports

variable {dev : SwitchDev} {s : Priv}

theorem inv_reset (dev : SwitchDev) : Inv dev resetSwitch := by
  have h (j p : Nat) : ¬ Member resetSwitch j p := by
    intro hm
    cases hm.symm.trans (BitVec.getLsbD_zero (i := p))
  exact ⟨fun p i j _ _ _ hi _ => absurd hi (h i p), fun j p _ hm => absurd hm (h j p)⟩

/-- what one round of `setPorts` does to the members of a VLAN -/
theorem member_setPort {v j q : Nat} {p : SwitchPort} (hp : p.id < maxPorts) (hj : j < maxVlans) :
    Member (setPort v s p) j q ↔ (j = v ∧ (Member s j q ∨ q = p.id)) ∨
      (j ≠ v ∧ Member s j q ∧ (p.tagged = true ∨ q ≠ p.id)) := by
  unfold Member setPort
  by_cases hjv : j = v
  · subst hjv
    have hbit : (bit p.id).getLsbD q = true ↔ q = p.id := by
      rw [bit_getLsbD hp]
      exact decide_eq_true_iff
    cases ht : p.tagged
    · simp [hbit, removePort_apply]
    · simp [hbit]
  · cases ht : p.tagged
    · simp only [Bool.false_eq_true, if_false, Function.update_of_ne hjv, removePort_apply]
      rw [if_pos ⟨hj, hjv⟩]
      by_cases hq : q < maxPorts
      · rw [getLsbD_clear hp hq]
        simp [hjv]
      · have hz (w : BitVec 8) : w.getLsbD q = false := BitVec.getLsbD_of_ge w q (Nat.not_lt.mp hq)
        simp [hz, hjv]
    · simp [hjv]

theorem tagged_setPort {v q : Nat} {p : SwitchPort} (hp : p.id < maxPorts) :
    Tagged (setPort v s p) q ↔ (q = p.id ∧ p.tagged = true) ∨ (q ≠ p.id ∧ Tagged s q) := by
  unfold Tagged setPort
  cases ht : p.tagged
  · simp only [Bool.false_eq_true, if_false]
    by_cases hq : q < maxPorts
    · rw [getLsbD_clear hp hq]
      simp [and_comm]
    · have hz (w : BitVec 8) : w.getLsbD q = false := BitVec.getLsbD_of_ge w q (Nat.not_lt.mp hq)
      simp [hz]
  · simp only [if_true]
    rw [BitVec.getLsbD_or, bit_getLsbD hp]
    by_cases hq : q = p.id <;> simp [hq]

theorem inv_setPort {v : Nat} {p : SwitchPort} (h : Inv dev s) (hv : v < maxVlans)
    (hp : p.id < dev.ports) : Inv dev (setPort v s p) := by
  have hp' : p.id < maxPorts := Nat.lt_of_lt_of_le hp dev.ports_le
  constructor
  case untagged =>
    intro q i j ht hi hj hmi hmj
    rw [tagged_setPort hp'] at ht
    rw [member_setPort hp' hi] at hmi
    rw [member_setPort hp' hj] at hmj
    by_cases hq : q = p.id
    · -- the port of this round: it is in `v` only
      have hnt : p.tagged ≠ true := fun h => ht (.inl ⟨hq, h⟩)
      have only (k : Nat) (hm : (k = v ∧ (Member s k q ∨ q = p.id)) ∨
          (k ≠ v ∧ Member s k q ∧ (p.tagged = true ∨ q ≠ p.id))) : k = v := by
        rcases hm with hm | ⟨-, -, hm | hm⟩
        · exact hm.1
        · exact absurd hm hnt
        · exact absurd hq hm
      rw [only i hmi, only j hmj]
    · have hnt : ¬ Tagged s q := fun h => ht (.inr ⟨hq, h⟩)
      have old (k : Nat) (hm : (k = v ∧ (Member s k q ∨ q = p.id)) ∨
          (k ≠ v ∧ Member s k q ∧ (p.tagged = true ∨ q ≠ p.id))) : Member s k q := by
        rcases hm with ⟨-, hm | hm⟩ | hm
        · exact hm
        · exact absurd hm hq
        · exact hm.2.1
      exact h.untagged q i j hnt hi hj (old i hmi) (old j hmj)
  case ports =>
    intro j q hj hm
    rcases (member_setPort hp' hj).mp hm with ⟨-, hm | rfl⟩ | ⟨-, hm, -⟩
    · exact h.ports j q hj hm
    · exact hp
    · exact h.ports j q hj hm

theorem inv_setPorts {v : Nat} {ports : List SwitchPort} (h : Inv dev s) (hv : v < maxVlans)
    (hp : ∀ p ∈ ports, p.id < dev.ports) : Inv dev (setPorts v ports s).2 := by
  have hcleared : Inv dev { s with vlanTable := Function.update s.vlanTable v 0 } := by
    have hsub (j q : Nat) (hm : (Function.update s.vlanTable v 0 j).getLsbD q = true) :
        Member s j q := by
      by_cases hj : j = v
      · subst hj
        rw [Function.update_self, show (0 : BitVec 8) = 0#8 from rfl, BitVec.getLsbD_zero] at hm
        cases hm
      · rw [Function.update_of_ne hj] at hm
        exact hm
    exact ⟨fun q i j ht hi hj hmi hmj => h.untagged q i j ht hi hj (hsub i q hmi) (hsub j q hmj),
      fun j q hj hm => h.ports j q hj (hsub j q hm)⟩
  show Inv dev (ports.foldl (setPort v) _)
  generalize { s with vlanTable := Function.update s.vlanTable v 0 } = s' at hcleared ⊢
  induction ports generalizing s' with
  | nil => exact hcleared
  | cons p ports ih =>
    exact ih (fun q hq => hp q (List.mem_cons_of_mem p hq)) _
      (inv_setPort hcleared hv (hp p List.mem_cons_self))

/-- the table and the tags are all the invariant is about -/
theorem Inv.congr {s' : Priv} (h : Inv dev s) (ht : s'.vlanTable = s.vlanTable)
    (hg : s'.vlanTagged = s.vlanTagged) : Inv dev s' := by
  obtain ⟨_, _, table, tagged, _⟩ := s'
  cases ht
  cases hg
  exact ⟨h.untagged, h.ports⟩

theorem inv_step {op : Op} (h : Inv dev s) (hop : op.Valid dev) : Inv dev (step dev s op) := by
  cases op with
  | setPorts portVlan ports =>
    exact inv_setPorts h (Nat.lt_of_lt_of_le hop.1 dev.vlans_le) hop.2
  | setPvid port vlan =>
    show Inv dev (setPvid dev port vlan s).2
    unfold setPvid
    split
    · exact h
    · exact h.congr rfl rfl
  | setVid portVlan value =>
    show Inv dev (setVid portVlan value s).2
    unfold setVid
    split
    · exact h
    · exact h.congr rfl rfl

theorem inv_run {ops : List Op} (h : Inv dev s) (hops : ∀ op ∈ ops, op.Valid dev) :
    Inv dev (run dev s ops) := by
  unfold run
  induction ops generalizing s with
  | nil => exact h
  | cons op ops ih =>
    exact ih (inv_step h (hops op List.mem_cons_self))
      fun o ho => hops o (List.mem_cons_of_mem op ho)

/-! ## the masks -/

theorem vlanMask_bit (vp : BitVec 8) (m : Nat → BitVec 8) (i k : Nat) :
    (vlanMask dev vp m i).getLsbD k = true ↔ (m i).getLsbD k = true ∨
      (i < dev.ports ∧ i ≠ k ∧ vp.getLsbD i = true ∧ vp.getLsbD k = true) := by
  unfold vlanMask
  rw [foldl_update (fun i => vp &&& bit i ≠ 0) (fun i w => w ||| (vp &&& ~~~bit i))]
  by_cases hi : i < dev.ports
  · have hi' : i < maxPorts := Nat.lt_of_lt_of_le hi dev.ports_le
    have hbit := and_bit_ne_zero hi' vp
    by_cases hv : vp.getLsbD i = true
    · rw [if_pos ⟨hi, hbit.mpr hv⟩, BitVec.getLsbD_or, Bool.or_eq_true]
      refine or_congr_right ?_
      by_cases hk : k < maxPorts
      · rw [getLsbD_clear hi' hk, Bool.and_eq_true, decide_eq_true_iff]
        exact ⟨fun h => ⟨hi, h.2.symm, hv, h.1⟩, fun h => ⟨h.2.2.2, h.2.1.symm⟩⟩
      · have hz (w : BitVec 8) : w.getLsbD k = false := BitVec.getLsbD_of_ge w k (Nat.not_lt.mp hk)
        simp [hz]
    · rw [if_neg fun h => hv (hbit.mp h.2)]
      simp [hv]
  · rw [if_neg fun h => hi h.1]
    simp [hi]

/-- two ports reach each other just when a VLAN has both -/
theorem portmask_bit (h : Inv dev s) (i k : Nat) : (portmask dev false s i).getLsbD k = true ↔
    i ≠ k ∧ ∃ j, j < maxVlans ∧ Member s j i ∧ Member s j k := by
  have loop (n : Nat) (hn : n ≤ maxVlans) : ((List.range n).foldl
      (fun m j => if s.vlanTable j = 0 then m else vlanMask dev (s.vlanTable j) m)
        (fun _ => 0) i).getLsbD k = true ↔
      i ≠ k ∧ ∃ j, j < n ∧ Member s j i ∧ Member s j k := by
    induction n with
    | zero => simp
    | succ n ih =>
      rw [List.range_succ, List.foldl_append, List.foldl_cons, List.foldl_nil]
      have hstep (m : Nat → BitVec 8) : ((if s.vlanTable n = 0 then m
          else vlanMask dev (s.vlanTable n) m) i).getLsbD k = true ↔
          (m i).getLsbD k = true ∨ (i ≠ k ∧ Member s n i ∧ Member s n k) := by
        by_cases hz : s.vlanTable n = 0
        · have hm : ¬ Member s n i := by
            unfold Member
            rw [hz, show (0 : BitVec 8) = 0#8 from rfl, BitVec.getLsbD_zero]
            exact Bool.false_ne_true
          rw [if_pos hz]
          simp [hm]
        · rw [if_neg hz, vlanMask_bit]
          refine or_congr_right ⟨fun h => h.2, fun hm => ⟨h.ports n i hn hm.2.1, hm⟩⟩
      rw [hstep, ih (by omega), ← and_or_left]
      refine and_congr_right fun _ => ⟨?_, ?_⟩
      · rintro (⟨j, hj, hm⟩ | hm)
        · exact ⟨j, by omega, hm⟩
        · exact ⟨n, by omega, hm⟩
      · rintro ⟨j, hj, hm⟩
        by_cases hjn : j = n
        · exact .inr (hjn ▸ hm)
        · exact .inl ⟨j, by omega, hm⟩
  exact loop maxVlans (Nat.le_refl _)

/-- the masks of a configuration keep untagged ports of different VLANs apart -/
theorem Inv.apart (h : Inv dev s) {i k vi vk : Nat} (hv : vi ≠ vk) (hvi : vi < maxVlans)
    (hvk : vk < maxVlans) (hi : ¬ Tagged s i) (hk : ¬ Tagged s k) (hmi : Member s vi i)
    (hmk : Member s vk k) : (portmask dev false s i).getLsbD k = false := by
  by_contra hc
  obtain ⟨-, j, hj, hji, hjk⟩ := (portmask_bit h i k).mp (by simpa using hc)
  exact hv ((h.untagged i vi j hi hvi hj hmi hji).trans
    (h.untagged k vk j hk hvk hj hmk hjk).symm)

/-- **VLAN isolation**, in every configuration that calls from swconfig lead to. -/
theorem run_isolates (dev : SwitchDev) (ops : List Op) (hops : ∀ op ∈ ops, op.Valid dev) :
    (∀ p i j, ¬ Tagged (run dev resetSwitch ops) p → i < maxVlans → j < maxVlans →
      Member (run dev resetSwitch ops) i p → Member (run dev resetSwitch ops) j p → i = j) ∧
    (∀ i, (portmask dev false (run dev resetSwitch ops) i).getLsbD i = false) ∧
    (∀ i k, (portmask dev false (run dev resetSwitch ops) i).getLsbD k =
      (portmask dev false (run dev resetSwitch ops) k).getLsbD i) ∧
    (∀ i k, (portmask dev false (run dev resetSwitch ops) i).getLsbD k = true ↔ i ≠ k ∧
      ∃ j, j < maxVlans ∧ Member (run dev resetSwitch ops) j i ∧
        Member (run dev resetSwitch ops) j k) ∧
    ∀ i k vi vk, vi ≠ vk → vi < maxVlans → vk < maxVlans →
      ¬ Tagged (run dev resetSwitch ops) i → ¬ Tagged (run dev resetSwitch ops) k →
      Member (run dev resetSwitch ops) vi i → Member (run dev resetSwitch ops) vk k →
      (portmask dev false (run dev resetSwitch ops) i).getLsbD k = false := by
  have h : Inv dev (run dev resetSwitch ops) := inv_run (inv_reset dev) hops
  have hbit := portmask_bit h
  refine ⟨h.untagged, fun i => ?_, fun i k => ?_, hbit,
    fun i k vi vk hv hvi hvk hi hk hmi hmk => h.apart hv hvi hvk hi hk hmi hmk⟩
  · by_contra hc
    exact ((hbit i i).mp (by simpa using hc)).1 rfl
  · rw [Bool.eq_iff_iff, hbit, hbit]
    constructor
    · rintro ⟨hne, j, hj, hi, hk⟩
      exact ⟨hne.symm, j, hj, hk, hi⟩
    · rintro ⟨hne, j, hj, hi, hk⟩
      exact ⟨hne.symm, j, hj, hk, hi⟩

theorem ar8216Dev_ports : 6 ≤ maxPorts := by decide

theorem ar8216Dev_vlans : 16 ≤ maxVlans := by decide

/-- the AR8216 -/
def ar8216Dev : SwitchDev := ⟨6, 16, ar8216Dev_ports, ar8216Dev_vlans⟩

/-- a port that changes its VLAN and its tag, twice in one list -/
def moves : List Op :=
  [.setPorts 1 [⟨0, 4⟩, ⟨1, 0⟩, ⟨2, 0⟩], .setPvid 1 1, .setVid 1 100,
    .setPorts 2 [⟨0, 4⟩, ⟨1, 4⟩, ⟨1, 0⟩, ⟨3, 0⟩]]

theorem run_isolates_moves : (∀ op ∈ moves, op.Valid ar8216Dev) ∧
    Member (run ar8216Dev resetSwitch moves) 2 1 ∧
    (portmask ar8216Dev false (run ar8216Dev resetSwitch moves) 1).getLsbD 2 = false :=
  ⟨by decide, by unfold Member; decide +kernel,
    (run_isolates ar8216Dev moves (by decide)).2.2.2.2 1 2 2 1 (by decide) (by decide) (by decide)
      (by unfold Tagged; decide +kernel) (by unfold Tagged; decide +kernel)
      (by unfold Member; decide +kernel) (by unfold Member; decide +kernel)⟩

end Ar8216
