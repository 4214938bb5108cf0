import Firmware.Switch.Rt3050

/-!
# swconfig: the ports of a VLAN

`swconfig_set_vlan_ports`, the core in front of a switch driver: a port is checked, its PVID is set,
then the next one is checked.  The driver is that of the rt3050.

* `checkPorts`, `swconfigSetVlanPorts`   the core, for any driver;
* `esw`               the driver;
* `checkPorts_esw`    what the loop leaves behind;
* `Unchanged`         a rejected request changes nothing;
* `rejected_iff`      when that is so.
-/

set_option linter.unusedVariables false

namespace Swconfig
open Rt3050 (SwitchVal SwitchPort Esw)

def eInval : Int := -22
def eOpnotsupp : Int := -95

/-! ## the core -/

/-- `struct switch_dev` and its `ops`; an operation may be missing -/
structure Driver (σ : Type) where
  ports : Nat
  vlans : Nat
  setVlanPorts : Option (σ → SwitchVal → σ × Int)
  setPortPvid : Option (σ → Nat → Nat → σ × Int)

variable {σ : Type}

/-- one turn of the loop, for a port that is there; what `set_port_pvid` returns is not looked at -/
def setPvidOf (drv : Driver σ) (vlan : Nat) (s : σ) (p : SwitchPort) : σ :=
  match drv.setPortPvid with
  | some setPortPvid => if p.flags &&& Rt3050.tagged = 0 then (setPortPvid s p.id vlan).1 else s
  | none => s

/-- "validate ports": `false` is `-EINVAL` -/
def checkPorts (drv : Driver σ) (vlan : Nat) : List SwitchPort → σ → σ × Bool
  | [], s => (s, true)
  | p :: l, s => if p.id ≥ drv.ports then (s, false) else checkPorts drv vlan l (setPvidOf drv vlan s p)

def swconfigSetVlanPorts (drv : Driver σ) (s : σ) (val : SwitchVal) : σ × Int :=
  if val.portVlan ≥ drv.vlans then (s, eInval)
  else if val.ports.length > drv.ports then (s, eInval)
  else
    match drv.setVlanPorts with
    | none => (s, eOpnotsupp)
    | some setVlanPorts =>
      let r := checkPorts drv val.portVlan val.ports s
      if r.2 then setVlanPorts r.1 val else (r.1, eInval)

/-- the switch of the rt3050 -/
def esw : Driver Esw where
  ports := Rt3050.numPorts
  vlans := Rt3050.numVids
  setVlanPorts := some Rt3050.setVlanPorts
  setPortPvid := some fun s port val => Rt3050.setPortPvid s port (BitVec.ofNat 32 val)

/-! ## what the loop leaves behind -/

/-- the ports up to the first one that the switch does not have -/
def checked (val : SwitchVal) : List SwitchPort :=
  val.ports.takeWhile fun p => p.id < Rt3050.numPorts

/-- `port` is in the list, and untagged -/
def Untagged (l : List SwitchPort) (port : Nat) : Prop :=
  ∃ p ∈ l, p.id = port ∧ p.flags &&& Rt3050.tagged = 0

theorem untagged_cons {p : SwitchPort} {l : List SwitchPort} {port : Nat} :
    Untagged (p :: l) port ↔ (p.id = port ∧ p.flags &&& Rt3050.tagged = 0) ∨ Untagged l port := by
  unfold Untagged
  rw [List.exists_mem_cons_iff]

/-- `s'` is `s`, but the untagged ports of the list have the PVID -/
structure Pvids (s s' : Esw) (vlan : Nat) (l : List SwitchPort) : Prop where
  vlans : s'.vlans = s.vlans
  untag : ∀ i, (s'.ports i).untag = (s.ports i).untag
  set : ∀ i : Fin Rt3050.numPorts, Untagged l i → (s'.ports i).pvid = BitVec.ofNat 16 vlan
  other : ∀ i : Fin Rt3050.numPorts, ¬ Untagged l i → (s'.ports i).pvid = (s.ports i).pvid

theorem Pvids.refl (s : Esw) (vlan : Nat) : Pvids s s vlan [] :=
  ⟨rfl, fun _ => rfl, fun _ ⟨_, h, _⟩ => absurd h List.not_mem_nil, fun _ _ => rfl⟩

theorem ofNat_setWidth (vlan : Nat) : (BitVec.ofNat 32 vlan).setWidth 16 = BitVec.ofNat 16 vlan := by
  apply BitVec.eq_of_toNat_eq
  rw [BitVec.toNat_setWidth, BitVec.toNat_ofNat, BitVec.toNat_ofNat]
  omega

def withPvid (s : Esw) (i : Fin Rt3050.numPorts) (vlan : Nat) : Rt3050.Port :=
  { s.ports i with pvid := BitVec.ofNat 16 vlan }

/-- the list with a port in front of it -/
theorem Pvids.cons {s s' : Esw} {vlan : Nat} {p : SwitchPort} {l : List SwitchPort}
    (hp : p.id < Rt3050.numPorts) (h : Pvids (setPvidOf esw vlan s p) s' vlan l) :
    Pvids s s' vlan (p :: l) := by
  by_cases ht : p.flags &&& Rt3050.tagged = 0
  · have hs : setPvidOf esw vlan s p =
        { s with ports := Function.update s.ports ⟨p.id, hp⟩ (withPvid s ⟨p.id, hp⟩ vlan) } := by
      show (if p.flags &&& Rt3050.tagged = 0 then (Rt3050.setPortPvid s p.id _).1 else s) = _
      unfold Rt3050.setPortPvid
      rw [if_pos ht, dif_pos hp, ofNat_setWidth]
      rfl
    rw [hs] at h
    have hcase : ∀ i : Fin Rt3050.numPorts, i.val ≠ p.id →
        Function.update s.ports ⟨p.id, hp⟩ (withPvid s ⟨p.id, hp⟩ vlan) i = s.ports i := by
      intro i hi
      rw [Function.update_of_ne fun e => hi (congrArg Fin.val e)]
    refine ⟨h.vlans, fun i => ?_, fun i hi => ?_, fun i hi => ?_⟩
    · rw [h.untag i]
      show (Function.update s.ports _ _ i).untag = _
      by_cases hip : i.val = p.id
      · obtain rfl : i = ⟨p.id, hp⟩ := Fin.ext hip
        rw [Function.update_self]
        rfl
      · rw [hcase i hip]
    · by_cases hl : Untagged l i
      · exact h.set i hl
      · have hip : i.val = p.id := by
          rcases untagged_cons.mp hi with ⟨hip, _⟩ | hi
          · exact hip.symm
          · exact absurd hi hl
        rw [h.other i hl]
        show (Function.update s.ports _ _ i).pvid = _
        obtain rfl : i = ⟨p.id, hp⟩ := Fin.ext hip
        rw [Function.update_self]
        rfl
    · have hl : ¬ Untagged l i := fun hl => hi (untagged_cons.mpr (.inr hl))
      rw [h.other i hl]
      show (Function.update s.ports _ _ i).pvid = _
      rw [hcase i fun hip => hi (untagged_cons.mpr (.inl ⟨hip.symm, ht⟩))]
  · have hs : setPvidOf esw vlan s p = s := if_neg ht
    rw [hs] at h
    have hiff : ∀ i, Untagged (p :: l) i ↔ Untagged l i := fun i =>
      untagged_cons.trans (or_iff_right fun hp => ht hp.2)
    exact ⟨h.vlans, h.untag, fun i hi => h.set i ((hiff i).mp hi),
      fun i hi => h.other i fun hl => hi ((hiff i).mpr hl)⟩

/-- the PVIDs are set up to the first port that is refused -/
theorem checkPorts_esw (vlan : Nat) (l : List SwitchPort) (s : Esw) :
    Pvids s (checkPorts esw vlan l s).1 vlan (l.takeWhile fun p => p.id < Rt3050.numPorts) ∧
    ((checkPorts esw vlan l s).2 = true ↔ ∀ p ∈ l, p.id < Rt3050.numPorts) := by
  induction l generalizing s with
  | nil => exact ⟨Pvids.refl s vlan, iff_of_true rfl fun p h => absurd h List.not_mem_nil⟩
  | cons p l ih =>
    unfold checkPorts
    by_cases hp : p.id < Rt3050.numPorts
    · rw [if_neg (show ¬ p.id ≥ esw.ports from Nat.not_le.mpr hp),
        List.takeWhile_cons_of_pos (by simpa using hp)]
      obtain ⟨h1, h2⟩ := ih (setPvidOf esw vlan s p)
      refine ⟨h1.cons hp, h2.trans ?_⟩
      rw [List.forall_mem_cons, and_iff_right hp]
    · rw [if_pos (show p.id ≥ esw.ports from Nat.not_lt.mp hp),
        List.takeWhile_cons_of_neg (by simpa using hp)]
      refine ⟨Pvids.refl s vlan, iff_of_false Bool.false_ne_true fun h => ?_⟩
      exact hp (h p List.mem_cons_self)

/-! ## a rejected request -/

/-- after an error the PVIDs, the tag settings and the VLANs are as before -/
structure Unchanged (s : Esw) (r : Esw × Int) : Prop where
  pvid : r.2 ≠ 0 → ∀ i, (r.1.ports i).pvid = (s.ports i).pvid
  untag : r.2 ≠ 0 → ∀ i, (r.1.ports i).untag = (s.ports i).untag
  vlans : r.2 ≠ 0 → r.1.vlans = s.vlans

/-- the request is refused before the loop, or accepted -/
def Plain (s : Esw) (val : SwitchVal) : Prop :=
  val.portVlan ≥ Rt3050.numVids ∨ val.ports.length > Rt3050.numPorts ∨
  ((∀ p ∈ val.ports, p.id < Rt3050.numPorts) ∧ Rt3050.findSlot s.vlans val.portVlan ≠ none)

/-- the untagged ports up to the first bad one have the PVID already -/
def Already (s : Esw) (val : SwitchVal) : Prop :=
  ∀ i : Fin Rt3050.numPorts, Untagged (checked val) i →
    (s.ports i).pvid = BitVec.ofNat 16 val.portVlan

/-- the driver is not asked for a port it does not have -/
theorem setUntag_some {l : List SwitchPort} (h : ∀ p ∈ l, p.id < Rt3050.numPorts) :
    ∀ (mask : BitVec 32) (ports : Fin Rt3050.numPorts → Rt3050.Port),
      ∃ ports' mask', Rt3050.setUntag l mask ports = (ports', some mask') := by
  induction l with
  | nil => exact fun mask ports => ⟨ports, mask, rfl⟩
  | cons p l ih =>
    intro mask ports
    have hp := h p List.mem_cons_self
    unfold Rt3050.setUntag
    rw [dif_pos hp]
    exact ih (fun q hq => h q (List.mem_cons_of_mem _ hq)) _ _

/-- a request that the loop accepts fails for want of a slot only, and then the driver does nothing -/
theorem setVlanPorts_esw {s : Esw} {val : SwitchVal} (hv : val.portVlan < Rt3050.numVids)
    (hl : val.ports.length ≤ Rt3050.numPorts) (hp : ∀ p ∈ val.ports, p.id < Rt3050.numPorts) :
    (Rt3050.findSlot s.vlans val.portVlan = none ∧ Rt3050.setVlanPorts s val = (s, Rt3050.eInval)) ∨
    (Rt3050.findSlot s.vlans val.portVlan ≠ none ∧ (Rt3050.setVlanPorts s val).2 = 0) := by
  unfold Rt3050.setVlanPorts
  rw [if_neg (by omega)]
  cases hf : Rt3050.findSlot s.vlans val.portVlan with
  | none => exact .inl ⟨rfl, rfl⟩
  | some i =>
    obtain ⟨ports, mask, h⟩ := setUntag_some hp Rt3050.portsNone s.ports
    simp only [h]
    exact .inr ⟨nofun, trivial⟩

/-- the outcome of a request that gets to the loop -/
theorem swconfigSetVlanPorts_esw {s : Esw} {val : SwitchVal} (hv : val.portVlan < Rt3050.numVids)
    (hl : val.ports.length ≤ Rt3050.numPorts) :
    (Plain s val ∧ (swconfigSetVlanPorts esw s val).2 = 0) ∨
    (¬ Plain s val ∧ (swconfigSetVlanPorts esw s val).2 ≠ 0 ∧
      Pvids s (swconfigSetVlanPorts esw s val).1 val.portVlan (checked val)) := by
  obtain ⟨h1, h2⟩ := checkPorts_esw val.portVlan val.ports s
  have he : swconfigSetVlanPorts esw s val
      = if (checkPorts esw val.portVlan val.ports s).2 then
          Rt3050.setVlanPorts (checkPorts esw val.portVlan val.ports s).1 val
        else ((checkPorts esw val.portVlan val.ports s).1, eInval) := by
    unfold swconfigSetVlanPorts
    rw [if_neg (show ¬ val.portVlan ≥ esw.vlans from Nat.not_le.mpr hv),
      if_neg (show ¬ val.ports.length > esw.ports from Nat.not_lt.mpr hl)]
    rfl
  have hplain : Plain s val ↔ (∀ p ∈ val.ports, p.id < Rt3050.numPorts) ∧
      Rt3050.findSlot s.vlans val.portVlan ≠ none := by
    unfold Plain
    rw [or_iff_right (Nat.not_le.mpr hv), or_iff_right (Nat.not_lt.mpr hl)]
  rw [he, hplain]
  generalize checkPorts esw val.portVlan val.ports s = r at *
  by_cases hp : ∀ p ∈ val.ports, p.id < Rt3050.numPorts
  · rw [if_pos (h2.mpr hp)]
    obtain ⟨hn, hs⟩ | ⟨hn, hs⟩ := setVlanPorts_esw (s := r.1) hv hl hp
    · rw [h1.vlans] at hn
      rw [hs]
      exact .inr ⟨fun h => h.2 hn, show Rt3050.eInval ≠ 0 by decide, h1⟩
    · rw [h1.vlans] at hn
      exact .inl ⟨⟨hp, hn⟩, hs⟩
  · rw [if_neg fun h => hp (h2.mp h)]
    exact .inr ⟨fun h => hp h.1, show eInval ≠ 0 by decide, h1⟩

/-- **A rejected port list changes nothing** exactly if it is rejected before the loop, or the
untagged ports in front of the bad one have the PVID already. -/
theorem rejected_iff (s : Esw) (val : SwitchVal) :
    Unchanged s (swconfigSetVlanPorts esw s val) ↔ Plain s val ∨ Already s val := by
  by_cases hv : val.portVlan ≥ Rt3050.numVids
  · have he : swconfigSetVlanPorts esw s val = (s, eInval) := by
      unfold swconfigSetVlanPorts
      exact if_pos hv
    rw [he]
    exact iff_of_true ⟨fun _ _ => rfl, fun _ _ => rfl, fun _ => rfl⟩ (.inl (.inl hv))
  by_cases hl : val.ports.length > Rt3050.numPorts
  · have he : swconfigSetVlanPorts esw s val = (s, eInval) := by
      unfold swconfigSetVlanPorts
      rw [if_neg (show ¬ val.portVlan ≥ esw.vlans from hv)]
      exact if_pos hl
    rw [he]
    exact iff_of_true ⟨fun _ _ => rfl, fun _ _ => rfl, fun _ => rfl⟩ (.inl (.inr (.inl hl)))
  obtain ⟨hp, hz⟩ | ⟨hp, hne, hpv⟩ :=
    swconfigSetVlanPorts_esw (s := s) (Nat.not_le.mp hv) (Nat.not_lt.mp hl)
  · exact iff_of_true ⟨fun h => absurd hz h, fun h => absurd hz h, fun h => absurd hz h⟩ (.inl hp)
  · rw [or_iff_right hp]
    constructor
    · intro h i hi
      rw [← h.pvid hne i]
      exact hpv.set i hi
    · intro h
      refine ⟨fun _ i => ?_, fun _ => hpv.untag, fun _ => hpv.vlans⟩
      by_cases hi : Untagged (checked val) i
      · rw [hpv.set i hi, h i hi]
      · exact hpv.other i hi

/-- a switch without VLANs -/
def noVlans : Esw := ⟨fun _ => 0, 0x3f, 0, true, false, 0, 0, fun _ => ⟨0, 0⟩,
  fun _ => ⟨false, false, false, 0, 0⟩⟩

/-- VLAN 5 for port 0 and the port 9, which the switch does not have: port 0 has the PVID 5 -/
theorem rejected_pvid :
    (swconfigSetVlanPorts esw noVlans ⟨5, [⟨0, 0⟩, ⟨9, 0⟩]⟩).2 = eInval ∧
    ((swconfigSetVlanPorts esw noVlans ⟨5, [⟨0, 0⟩, ⟨9, 0⟩]⟩).1.ports ⟨0, by decide⟩).pvid = 5 ∧
    ¬ Unchanged noVlans (swconfigSetVlanPorts esw noVlans ⟨5, [⟨0, 0⟩, ⟨9, 0⟩]⟩) := by
  have h1 : (swconfigSetVlanPorts esw noVlans ⟨5, [⟨0, 0⟩, ⟨9, 0⟩]⟩).2 = eInval := by decide
  have h2 : ((swconfigSetVlanPorts esw noVlans ⟨5, [⟨0, 0⟩, ⟨9, 0⟩]⟩).1.ports ⟨0, by decide⟩).pvid = 5 := by
    decide
  refine ⟨h1, h2, fun h => ?_⟩
  have h0 := h.pvid (by rw [h1]; decide) ⟨0, by decide⟩
  rw [h2] at h0
  exact absurd h0 (by decide)

end Swconfig
