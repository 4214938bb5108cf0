import Mathlib.Data.Finset.Basic
import Firmware.Switch.Rt3050

/-!
# esw_rt3050: the VLAN table

The 16 slots of the driver against a map from VIDs to sets of ports.

* `lastSet`          the ports of the last successful `setVlanPorts` of a VID;
* `Refines`          the slots hold a map, each VID at most once;
* `refines_run`      they hold the last successful sets, after every sequence of calls;
* `slot_regs`        `applyConfig` brings them to the registers;
* `vlans_refine`     and so they are read back.
-/

set_option linter.unusedVariables false

namespace Rt3050

def portIds (l : List SwitchPort) : Finset Nat := (l.map SwitchPort.id).toFinset

/-- the ports of a successful `setVlanPorts` for this VID -/
def setOf (vid : Nat) : Op × Int → Option (Finset Nat)
  | (.setVlanPorts val, ret) => if ret = 0 ∧ val.portVlan = vid then some (portIds val.ports) else none
  | _ => none

/-- the ports of the last one -/
def lastSet (l : List (Op × Int)) (vid : Nat) : Option (Finset Nat) := (l.filterMap (setOf vid)).getLast?

/-- arguments that `esw_set_vlan_ports` has nothing against -/
def Valid (val : SwitchVal) : Prop :=
  val.portVlan < numVids ∧ val.ports.length ≤ numPorts ∧ ∀ p ∈ val.ports, p.id < numPorts

/-! ## the slots -/

/-- slot `i` is in use, for this VID -/
def Slot (t : Fin numVlans → Vlan) (i : Fin numVlans) (vid : Nat) : Prop :=
  (t i).vid.toNat = vid ∧ (t i).ports ≠ 0

def maskPorts {n : Nat} (w : BitVec n) : Finset Nat := (Finset.range numPorts).filter fun p => w.getLsbD p

/-- the slots hold the map `m`: a VID without ports has no slot -/
structure Refines (t : Fin numVlans → Vlan) (m : Nat → Finset Nat) : Prop where
  vid_lt : ∀ i vid, Slot t i vid → vid < numVids
  distinct : ∀ i j vid, Slot t i vid → Slot t j vid → i = j
  nonempty : ∀ i vid, Slot t i vid → m vid ≠ ∅
  ports : ∀ i vid, Slot t i vid → m vid = maskPorts (t i).ports
  empty : ∀ vid, (∀ i, ¬ Slot t i vid) → m vid = ∅

theorem slot_update {t : Fin numVlans → Vlan} {i j : Fin numVlans} {e : Vlan} {vid : Nat} :
    Slot (Function.update t i e) j vid ↔
      (j = i ∧ e.vid.toNat = vid ∧ e.ports ≠ 0) ∨ (j ≠ i ∧ Slot t j vid) := by
  unfold Slot
  by_cases h : j = i
  · subst h
    simp
  · simp [h]

theorem refines_zero : Refines (fun _ => ⟨0, 0⟩) fun _ => ∅ := by
  have h0 : ∀ i vid, ¬ Slot (fun _ => ⟨0, 0⟩) i vid := fun i vid h => h.2 rfl
  exact ⟨fun i vid h => absurd h (h0 i vid), fun i j vid h => absurd h (h0 i vid),
    fun i vid h => absurd h (h0 i vid), fun i vid h => absurd h (h0 i vid), fun _ _ => rfl⟩

/-- a slot is written that no other VID has; no other slot has this VID -/
theorem Refines.set {t : Fin numVlans → Vlan} {m : Nat → Finset Nat} (h : Refines t m)
    {i : Fin numVlans} {vid : Nat} {e : Vlan} (hv : vid < numVids)
    (hi : ∀ w, Slot t i w → w = vid) (hn : ∀ j, j ≠ i → ¬ Slot t j vid)
    (he : e.ports ≠ 0 → e.vid.toNat = vid ∧ maskPorts e.ports ≠ ∅)
    (hz : e.ports = 0 → maskPorts e.ports = ∅) :
    Refines (Function.update t i e) (Function.update m vid (maskPorts e.ports)) := by
  have hne : ∀ j w, j ≠ i → Slot t j w → w ≠ vid := by
    intro j w hj hs hw
    exact hn j hj (hw ▸ hs)
  constructor
  case vid_lt =>
    intro j w hs
    obtain ⟨_, hw, hp⟩ | ⟨_, hs⟩ := slot_update.mp hs
    · rw [← hw, (he hp).1]
      exact hv
    · exact h.vid_lt j w hs
  case distinct =>
    intro j k w hj hk
    obtain ⟨hji, hw, hp⟩ | ⟨hji, hj⟩ := slot_update.mp hj <;>
      obtain ⟨hki, hw', hp'⟩ | ⟨hki, hk⟩ := slot_update.mp hk
    · exact hji.trans hki.symm
    · exact absurd (hw.symm.trans (he hp).1) (hne k w hki hk)
    · exact absurd (hw'.symm.trans (he hp').1) (hne j w hji hj)
    · exact h.distinct j k w hj hk
  case nonempty =>
    intro j w hs
    obtain ⟨_, hw, hp⟩ | ⟨hj, hs⟩ := slot_update.mp hs
    · rw [← hw, (he hp).1, Function.update_self]
      exact (he hp).2
    · rw [Function.update_of_ne (hne j w hj hs)]
      exact h.nonempty j w hs
  case ports =>
    intro j w hs
    obtain ⟨hj, hw, hp⟩ | ⟨hj, hs⟩ := slot_update.mp hs
    · rw [← hw, (he hp).1, Function.update_self, hj, Function.update_self]
    · rw [Function.update_of_ne (hne j w hj hs), Function.update_of_ne hj]
      exact h.ports j w hs
  case empty =>
    intro w hs
    by_cases hw : w = vid
    · rw [hw, Function.update_self]
      by_contra hm
      have hp : e.ports ≠ 0 := fun hp => hm (hz hp)
      exact hs i (slot_update.mpr (Or.inl ⟨rfl, (he hp).1.trans hw.symm, hp⟩))
    · rw [Function.update_of_ne hw]
      refine h.empty w fun j hj => ?_
      by_cases hji : j = i
      · exact hw (hi w (hji ▸ hj))
      · exact hs j (slot_update.mpr (Or.inr ⟨hji, hj⟩))

/-! ## the search -/

theorem findSlot_some {t : Fin numVlans → Vlan} {vid : Nat} {i : Fin numVlans}
    (h : findSlot t vid = some i) : Slot t i vid ∨ ((t i).ports = 0 ∧ ∀ j, ¬ Slot t j vid) := by
  unfold findSlot at h
  rw [Option.or_eq_some_iff] at h
  obtain h | ⟨hn, h⟩ := h
  · have hs := List.find?_some h
    rw [decide_eq_true_iff] at hs
    exact Or.inl hs
  · have hs := List.find?_some h
    rw [decide_eq_true_iff] at hs
    refine Or.inr ⟨hs, fun j hj => ?_⟩
    exact List.find?_eq_none.mp hn j (List.mem_finRange j) (decide_eq_true hj)

theorem findSlot_none {t : Fin numVlans → Vlan} {vid : Nat} (h : findSlot t vid = none)
    (i : Fin numVlans) : (t i).ports ≠ 0 ∧ (t i).vid.toNat ≠ vid := by
  unfold findSlot at h
  rw [Option.or_eq_none_iff] at h
  have hfree : (t i).ports ≠ 0 := fun h0 =>
    List.find?_eq_none.mp h.2 i (List.mem_finRange i) (decide_eq_true h0)
  refine ⟨hfree, fun hv => ?_⟩
  exact List.find?_eq_none.mp h.1 i (List.mem_finRange i) (decide_eq_true ⟨hv, hfree⟩)

/-! ## the calls -/

theorem getLsbD_bit {i k : Nat} (hi : i < 32) : (bit i).getLsbD k = true ↔ k = i := by
  unfold bit
  rw [BitVec.getLsbD_shiftLeft]
  show (_ && (1#32).getLsbD (k - i)) = true ↔ k = i
  rw [BitVec.getLsbD_one]
  simp only [Bool.and_eq_true, decide_eq_true_eq, Bool.not_eq_true', decide_eq_false_iff_not]
  omega

theorem setUntag_some {l : List SwitchPort} {mask mask' : BitVec 32} {ports ports' : Fin numPorts → Port}
    (h : setUntag l mask ports = (ports', some mask')) :
    (∀ p ∈ l, p.id < numPorts) ∧ ∀ k, mask'.getLsbD k ↔ mask.getLsbD k ∨ k ∈ portIds l := by
  induction l generalizing mask ports with
  | nil =>
    cases h
    exact ⟨fun p hp => absurd hp List.not_mem_nil, fun k => by simp [portIds]⟩
  | cons p l ih =>
    unfold setUntag at h
    split at h
    case isTrue hid =>
      obtain ⟨hl, hbit⟩ := ih h
      refine ⟨fun q hq => ?_, fun k => ?_⟩
      · obtain rfl | hq := List.mem_cons.mp hq
        · exact hid
        · exact hl q hq
      · rw [hbit, BitVec.getLsbD_or, Bool.or_eq_true, getLsbD_bit (lt_trans hid (by decide))]
        simp [portIds, or_assoc]
    case isFalse => cases h

theorem setUntag_none {l : List SwitchPort} {mask : BitVec 32} {ports ports' : Fin numPorts → Port}
    (h : setUntag l mask ports = (ports', none)) : ∃ p ∈ l, ¬ p.id < numPorts := by
  induction l generalizing mask ports with
  | nil => cases h
  | cons p l ih =>
    unfold setUntag at h
    split at h
    case isTrue =>
      obtain ⟨q, hq, hid⟩ := ih h
      exact ⟨q, List.mem_cons_of_mem _ hq, hid⟩
    case isFalse hid => exact ⟨p, List.mem_cons_self .., hid⟩

/-- what a call of `setVlanPorts` can do -/
theorem setVlanPorts_cases (s : Esw) (val : SwitchVal) :
    ((setVlanPorts s val).2 = eInval ∧ (setVlanPorts s val).1.vlans = s.vlans ∧
      (Valid val → findSlot s.vlans val.portVlan = none)) ∨
    ∃ (i : Fin numVlans) (mask : BitVec 32), (setVlanPorts s val).2 = 0 ∧ val.portVlan < numVids ∧
      findSlot s.vlans val.portVlan = some i ∧ (∀ p ∈ val.ports, p.id < numPorts) ∧
      (∀ k, mask.getLsbD k ↔ k ∈ portIds val.ports) ∧
      (setVlanPorts s val).1.vlans = Function.update s.vlans i
        ⟨mask.setWidth 8, if mask = 0 then vlanNone else BitVec.ofNat 16 val.portVlan⟩ := by
  unfold setVlanPorts
  split
  case isTrue h =>
    refine Or.inl ⟨rfl, rfl, fun hval => ?_⟩
    have := hval.1
    have := hval.2.1
    omega
  case isFalse h =>
    split
    case h_1 hs => exact Or.inl ⟨rfl, rfl, fun _ => hs⟩
    case h_2 i hs =>
      split
      case h_1 ports hu =>
        refine Or.inl ⟨rfl, rfl, fun hval => ?_⟩
        obtain ⟨p, hp, hid⟩ := setUntag_none hu
        exact absurd (hval.2.2 p hp) hid
      case h_2 ports mask hu =>
        obtain ⟨hid, hbit⟩ := setUntag_some hu
        refine Or.inr ⟨i, mask, rfl, by omega, hs, hid, fun k => ?_, rfl⟩
        rw [hbit k]
        simp [portsNone]

/-- the mask of the ports of a call, in the slot -/
theorem maskPorts_mask {mask : BitVec 32} {l : List SwitchPort} (hid : ∀ p ∈ l, p.id < numPorts)
    (hbit : ∀ k, mask.getLsbD k ↔ k ∈ portIds l) : maskPorts (mask.setWidth 8) = portIds l := by
  ext k
  have hlt : k ∈ portIds l → k < 7 := by
    intro hk
    obtain ⟨p, hp, rfl⟩ := List.mem_map.mp (List.mem_toFinset.mp hk)
    exact hid p hp
  unfold maskPorts
  rw [Finset.mem_filter, Finset.mem_range, BitVec.getLsbD_setWidth, Bool.and_eq_true, hbit]
  refine ⟨fun h => h.2.2, fun h => ⟨hlt h, ?_, h⟩⟩
  have := hlt h
  exact decide_eq_true (by omega)

theorem mask_eq_zero {mask : BitVec 32} {l : List SwitchPort} (hbit : ∀ k, mask.getLsbD k ↔ k ∈ portIds l) :
    mask = 0 ↔ portIds l = ∅ := by
  constructor
  · intro h
    refine Finset.eq_empty_of_forall_notMem fun k hk => ?_
    rw [← hbit, h] at hk
    simp at hk
  · intro h
    refine BitVec.eq_of_getLsbD_eq fun k _ => ?_
    have hk : ¬ mask.getLsbD k = true := by
      rw [hbit, h]
      exact Finset.notMem_empty k
    simpa using hk

theorem maskPorts_zero : maskPorts (0 : BitVec 8) = ∅ := by decide

theorem refines_setVlanPorts {s : Esw} {m : Nat → Finset Nat} (h : Refines s.vlans m) (val : SwitchVal) :
    Refines (setVlanPorts s val).1.vlans
      (if (setVlanPorts s val).2 = 0 then Function.update m val.portVlan (portIds val.ports) else m) := by
  obtain ⟨hret, hvl, _⟩ | ⟨i, mask, hret, hv, hs, hid, hbit, hvl⟩ := setVlanPorts_cases s val
  · rw [hret, hvl]
    exact h
  · rw [if_pos hret, hvl, ← maskPorts_mask hid hbit]
    refine h.set hv ?_ ?_ ?_ ?_
    · intro w hw
      obtain hi | ⟨hi, _⟩ := findSlot_some hs
      · exact hw.1.symm.trans hi.1
      · exact absurd hi hw.2
    · intro j hj hjs
      obtain hi | ⟨_, hn⟩ := findSlot_some hs
      · exact hj (h.distinct j i _ hjs hi)
      · exact hn j hjs
    · intro hp
      have hm : mask ≠ 0 := by
        rintro rfl
        exact hp rfl
      refine ⟨?_, ?_⟩
      · show (if mask = 0 then vlanNone else BitVec.ofNat 16 val.portVlan).toNat = _
        rw [if_neg hm, BitVec.toNat_ofNat]
        exact Nat.mod_eq_of_lt (lt_trans hv (by decide))
      · rw [maskPorts_mask hid hbit]
        exact fun h0 => hm ((mask_eq_zero hbit).mpr h0)
    · intro hp
      show maskPorts (mask.setWidth 8) = ∅
      rw [show mask.setWidth 8 = 0 from hp]
      exact maskPorts_zero

/-- the other calls leave the slots alone -/
theorem step_vlans (s : Esw) (op : Op) :
    (∃ val, op = .setVlanPorts val) ∨
      ((step s op).1.vlans = s.vlans ∧ ∀ vid ret, setOf vid (op, ret) = none) := by
  cases op with
  | setVlanPorts val => exact Or.inl ⟨val, rfl⟩
  | setPortBool attr idx val =>
    refine Or.inr ⟨?_, fun _ _ => rfl⟩
    simp only [step, setPortBool]
    split <;> rfl
  | setPortLed idx val =>
    refine Or.inr ⟨?_, fun _ _ => rfl⟩
    simp only [step, setPortLed]
    split <;> rfl
  | setPortPvid port val =>
    refine Or.inr ⟨?_, fun _ _ => rfl⟩
    simp only [step, setPortPvid]
    split <;> rfl
  | _ => exact Or.inr ⟨rfl, fun _ _ => rfl⟩

/-! ## the runs -/

/-- the map that the successful calls make -/
def mapOf (l : List (Op × Int)) (vid : Nat) : Finset Nat := (lastSet l vid).getD ∅

theorem lastSet_append (l : List (Op × Int)) (c : Op × Int) (vid : Nat) :
    lastSet (l ++ [c]) vid = (setOf vid c).or (lastSet l vid) := by
  unfold lastSet
  rw [List.filterMap_append, List.getLast?_append]
  congr 1
  cases h : setOf vid c <;> simp [h]

theorem mapOf_append_set (l : List (Op × Int)) (val : SwitchVal) (ret : Int) :
    mapOf (l ++ [(.setVlanPorts val, ret)]) =
      if ret = 0 then Function.update (mapOf l) val.portVlan (portIds val.ports) else mapOf l := by
  funext vid
  unfold mapOf
  rw [lastSet_append, setOf]
  by_cases hr : ret = 0
  · rw [if_pos hr]
    by_cases hv : vid = val.portVlan
    · rw [if_pos ⟨hr, hv.symm⟩, hv, Function.update_self]
      rfl
    · rw [if_neg fun h => hv h.2.symm, Function.update_of_ne hv]
      rfl
  · rw [if_neg hr, if_neg fun h => hr h.1]
    rfl

theorem run_append (s : Esw) (ops : List Op) (op : Op) : run s (ops ++ [op]) = (step (run s ops) op).1 := by
  unfold run
  rw [List.foldl_append]
  rfl

theorem log_append (s : Esw) (ops : List Op) (op : Op) :
    log s (ops ++ [op]) = log s ops ++ [(op, (step (run s ops) op).2)] := by
  induction ops generalizing s with
  | nil => rfl
  | cons o l ih => exact congrArg _ (ih (step s o).1)

theorem refines_run {s : Esw} (h : Refines s.vlans fun _ => ∅) (ops : List Op) :
    Refines (run s ops).vlans (mapOf (log s ops)) := by
  induction ops using List.reverseRecOn with
  | nil => exact h
  | append_singleton ops op ih =>
    rw [run_append, log_append]
    obtain ⟨val, rfl⟩ | ⟨hv, hno⟩ := step_vlans (run s ops) op
    · rw [mapOf_append_set]
      exact refines_setVlanPorts ih val
    · rw [hv]
      convert ih using 1
      funext vid
      rw [mapOf, lastSet_append, hno]
      rfl

/-! ## the registers of the VLANs -/

/-- the registers `VLANI` and `VMSC` are the same -/
def SameVlans (r r' : Regs) : Prop := ∀ a, 0x50 ≤ a → a < 0x80 → r' a = r a

theorem SameVlans.refl (r : Regs) : SameVlans r r := fun _ _ _ => rfl

theorem SameVlans.trans {r r' r'' : Regs} (h : SameVlans r r') (h' : SameVlans r' r'') : SameVlans r r'' :=
  fun a h1 h2 => (h' a h1 h2).trans (h a h1 h2)

theorem sameVlans_update (r : Regs) {a : Nat} (h : a < 0x50 ∨ 0x80 ≤ a) (w : BitVec 32) :
    SameVlans r (Function.update r a w) := by
  intro b h1 h2
  exact Function.update_of_ne (by omega) ..

theorem SameVlans.rmw {r r' : Regs} (hr : SameVlans r r') {a : Nat} (h : a < 0x50 ∨ 0x80 ≤ a)
    (mask val : BitVec 32) : SameVlans r (Rt3050.rmw r' a mask val) := hr.trans (sameVlans_update r' h _)

theorem sameVlans_foldl {σ ι : Type} {f : σ → ι → σ} (π : σ → Regs)
    (h : ∀ x i, SameVlans (π x) (π (f x i))) (l : List ι) (x : σ) : SameVlans (π x) (π (l.foldl f x)) := by
  induction l generalizing x with
  | nil => exact SameVlans.refl _
  | cons i l ih => exact (h x i).trans (ih _)

theorem sameVlans_applyPort (s : Esw) (a : Masks) (i : Fin numPorts) :
    SameVlans a.regs (applyPort s a i).regs := by
  have hi : i.val < 7 := i.isLt
  have hpvid : ∀ v, SameVlans a.regs (setPvid a.regs i v) := by
    intro v
    refine sameVlans_update _ (Or.inl ?_) _
    show 0x40 + 4 * (i.val / 2) < 0x50
    omega
  unfold applyPort
  by_cases hled : i.val < numLeds
  · simp only [hled, if_true]
    refine (hpvid _).trans (sameVlans_update _ (Or.inr ?_) _)
    show 0x80 ≤ 0xa4 + 4 * i.val
    omega
  · simp only [hled, if_false]
    exact hpvid _

theorem sameVlans_miiWrite (r : Regs) (m : Mii) : SameVlans r (miiWrite r m) := by
  unfold miiWrite
  split
  · exact sameVlans_update r (by decide) _
  · exact SameVlans.refl r

theorem sameVlans_setPhy (ready : Nat → Bool) (changed disableMask : BitVec 32) (r : Regs) (i : Nat) :
    SameVlans r (setPhy ready changed disableMask r i) := by
  unfold setPhy
  split
  · exact sameVlans_miiWrite r _
  · exact SameVlans.refl r

theorem sameVlans_setPortDisable (ready : Nat → Bool) (r : Regs) (disableMask : BitVec 32) :
    SameVlans r (setPortDisable ready r disableMask) := by
  unfold setPortDisable
  have hloop := sameVlans_foldl id (sameVlans_setPhy ready
    (getPortDisable (r regPoc0) ^^^ disableMask) disableMask) (List.range numLeds)
  refine SameVlans.rmw ?_ (by decide) _ _
  exact (sameVlans_update r (by decide) _).trans (hloop _)

theorem sameVlans_setGsc (s : Esw) (r : Regs) : SameVlans r (setGsc s r) :=
  ((SameVlans.refl r).rmw (by decide) _ _).rmw (by decide) _ _

/-- what `applyConfig` leaves in them is the work of the first loop -/
theorem sameVlans_applyRegs (ready : Nat → Bool) {s : Esw} (h : s.globalVlanEnable = true) :
    SameVlans ((List.finRange numVlans).foldl (applyVlan s) s.regs) (applyRegs ready s) := by
  unfold applyRegs
  simp only [h, if_true]
  have hports := sameVlans_foldl Masks.regs (sameVlans_applyPort s) (List.finRange numPorts)
    ⟨(List.finRange numVlans).foldl (applyVlan s) s.regs, 0, 0, 0, 0⟩
  have hgsc := hports.trans (sameVlans_setGsc s _)
  refine SameVlans.rmw (SameVlans.rmw (SameVlans.rmw ?_ (by decide) _ _) (by decide) _ _) (by decide) _ _
  exact hgsc.trans (sameVlans_setPortDisable ready _ _)

theorem vlani_addr (i : Fin numVlans) : 0x50 ≤ vlani.addr i ∧ vlani.addr i < 0x70 := by
  have hi : i.val < 16 := i.isLt
  show 0x50 ≤ 0x50 + 4 * (i.val / 2) ∧ 0x50 + 4 * (i.val / 2) < 0x70
  omega

theorem vmsc_addr (i : Fin numVlans) : 0x70 ≤ vmsc.addr i ∧ vmsc.addr i < 0x80 := by
  have hi : i.val < 16 := i.isLt
  show 0x70 ≤ 0x70 + 4 * (i.val / 4) ∧ 0x70 + 4 * (i.val / 4) < 0x80
  omega

section

variable {s : Esw} (h : s.globalVlanEnable = true)
include h

theorem getVlanId_applyVlan_self (r : Regs) (i : Fin numVlans) :
    getVlanId (applyVlan s r i) i = (s.vlans i).vid.setWidth 32 &&& vlani.mask := by
  have h1 := vlani_addr i
  have h2 := vmsc_addr i
  unfold applyVlan
  rw [if_pos h]
  refine Eq.trans (vlani.read_congr (vmsc.write_of_ne _ _ _ (by omega))) ?_
  exact vlani.read_write_self _ _ _

theorem getVlanId_applyVlan_other (r : Regs) (i j : Fin numVlans) (hij : i ≠ j) :
    getVlanId (applyVlan s r i) j = getVlanId r j := by
  have h1 := vlani_addr j
  have h2 := vmsc_addr i
  unfold applyVlan
  rw [if_pos h]
  refine Eq.trans (vlani.read_congr (vmsc.write_of_ne _ _ _ (by omega))) ?_
  exact vlani.read_write_other _ (fun hv => hij (Fin.ext hv)) _

theorem getVmsc_applyVlan_self (r : Regs) (i : Fin numVlans) :
    getVmsc (applyVlan s r i) i = (s.vlans i).ports.setWidth 32 &&& vmsc.mask := by
  unfold applyVlan
  rw [if_pos h]
  exact vmsc.read_write_self _ _ _

theorem getVmsc_applyVlan_other (r : Regs) (i j : Fin numVlans) (hij : i ≠ j) :
    getVmsc (applyVlan s r i) j = getVmsc r j := by
  have h1 := vlani_addr i
  have h2 := vmsc_addr j
  unfold applyVlan
  rw [if_pos h]
  refine Eq.trans (vmsc.read_write_other _ (fun hv => hij (Fin.ext hv)) _) ?_
  exact vmsc.read_congr (vlani.write_of_ne _ _ _ (by omega))

theorem getVlanId_applyRegs (ready : Nat → Bool) (i : Fin numVlans) :
    getVlanId (applyRegs ready s) i = (s.vlans i).vid.setWidth 32 &&& vlani.mask := by
  have ha := vlani_addr i
  have hloop := Field.read_foldl (fun r (j : Fin numVlans) => getVlanId r j) (getVlanId_applyVlan_self h)
    (getVlanId_applyVlan_other h) (List.finRange numVlans) s.regs i
  rw [if_pos (List.mem_finRange i)] at hloop
  rw [← hloop]
  exact vlani.read_congr (sameVlans_applyRegs ready h _ (by omega) (by omega))

theorem getVmsc_applyRegs (ready : Nat → Bool) (i : Fin numVlans) :
    getVmsc (applyRegs ready s) i = (s.vlans i).ports.setWidth 32 &&& vmsc.mask := by
  have ha := vmsc_addr i
  have hloop := Field.read_foldl (fun r (j : Fin numVlans) => getVmsc r j) (getVmsc_applyVlan_self h)
    (getVmsc_applyVlan_other h) (List.finRange numVlans) s.regs i
  rw [if_pos (List.mem_finRange i)] at hloop
  rw [← hloop]
  exact vmsc.read_congr (sameVlans_applyRegs ready h _ (by omega) (by omega))

/-- a mask of a slot fits its field -/
theorem getVmsc_ports (ready : Nat → Bool) (i : Fin numVlans) :
    getVmsc (applyRegs ready s) i = (s.vlans i).ports.setWidth 32 := by
  rw [getVmsc_applyRegs h]
  show _ &&& Field.mask 32 8 = _
  refine Field.and_mask ?_
  rw [BitVec.toNat_setWidth]
  exact lt_of_le_of_lt (Nat.mod_le ..) (s.vlans i).ports.isLt

/-- and so does a VID -/
theorem getVlanId_vid (ready : Nat → Bool) {i : Fin numVlans} (hv : (s.vlans i).vid.toNat < numVids) :
    (getVlanId (applyRegs ready s) i).toNat = (s.vlans i).vid.toNat := by
  have hw : ((s.vlans i).vid.setWidth 32).toNat = (s.vlans i).vid.toNat := by
    rw [BitVec.toNat_setWidth]
    exact Nat.mod_eq_of_lt (lt_trans hv (by decide))
  rw [getVlanId_applyRegs h, ← hw]
  show (_ &&& Field.mask 32 12).toNat = _
  rw [Field.and_mask (hw ▸ hv)]

theorem getVmsc_ne_none (ready : Nat → Bool) (i : Fin numVlans) :
    getVmsc (applyRegs ready s) i ≠ portsNone ↔ (s.vlans i).ports ≠ 0 := by
  rw [getVmsc_ports h]
  refine not_congr ⟨fun h0 => ?_, fun h0 => ?_⟩
  · have h8 := congrArg (BitVec.setWidth 8) h0
    rw [BitVec.setWidth_setWidth_of_le _ (by decide)] at h8
    simpa [portsNone] using h8
  · rw [h0]
    rfl

/-- in the registers the slots are those of the table -/
theorem slot_regs {m : Nat → Finset Nat} (hm : Refines s.vlans m) (ready : Nat → Bool) (i : Fin numVlans)
    (vid : Nat) : ((getVlanId (applyRegs ready s) i).toNat = vid ∧ getVmsc (applyRegs ready s) i ≠ portsNone) ↔
      Slot s.vlans i vid := by
  rw [getVmsc_ne_none h]
  refine and_congr_left fun hp => ?_
  rw [getVlanId_vid h ready (hm.vid_lt i _ ⟨rfl, hp⟩)]

end

theorem findVlan_some {m : Nat → Finset Nat} {s : Esw} (h : s.globalVlanEnable = true)
    (hm : Refines s.vlans m) (ready : Nat → Bool) {vid : Nat} {i : Fin numVlans}
    (hf : findVlan (applyRegs ready s) vid = some i) : Slot s.vlans i vid := by
  have hs := List.find?_some hf
  rw [decide_eq_true_iff] at hs
  exact (slot_regs h hm ready i vid).mp hs

theorem findVlan_none {m : Nat → Finset Nat} {s : Esw} (h : s.globalVlanEnable = true)
    (hm : Refines s.vlans m) (ready : Nat → Bool) {vid : Nat}
    (hf : findVlan (applyRegs ready s) vid = none) (i : Fin numVlans) : ¬ Slot s.vlans i vid := by
  intro hi
  have hs := (slot_regs h hm ready i vid).mpr hi
  exact List.find?_eq_none.mp hf i (List.mem_finRange i) (decide_eq_true hs)

/-- the VLANs are read back -/
theorem getVlanPorts_applyConfig {m : Nat → Finset Nat} {s : Esw} (h : s.globalVlanEnable = true)
    (hm : Refines s.vlans m) (ready : Nat → Bool) {vid : Nat} (hv : vid < numVids) :
    (m vid = ∅ ∧ getVlanPorts (applyConfig ready s) vid = .error eInval) ∨
      (m vid ≠ ∅ ∧ ∃ l, getVlanPorts (applyConfig ready s) vid = .ok l ∧ portIds l = m vid ∧
        (l.map SwitchPort.id).Nodup) := by
  cases hf : findVlan (applyConfig ready s).regs vid with
  | none =>
    refine Or.inl ⟨hm.empty vid (findVlan_none h hm ready hf), ?_⟩
    rw [getVlanPorts, if_neg (Nat.not_le.mpr hv), hf]
  | some i =>
    have hs := findVlan_some h hm ready hf
    have hmsc : ∀ p ∈ List.range numPorts, (getVmsc (applyConfig ready s).regs i).getLsbD p =
        decide (p ∈ m vid) := by
      intro p hp
      rw [List.mem_range] at hp
      have hp32 : p < 32 := lt_trans hp (by decide)
      rw [hm.ports i vid hs, show getVmsc (applyConfig ready s).regs i = _ from getVmsc_ports h ready i,
        BitVec.getLsbD_setWidth, maskPorts]
      simp [hp, hp32]
    refine Or.inr ⟨hm.nonempty i vid hs, ((List.range numPorts).filter (· ∈ m vid)).map fun p =>
      ⟨p, if ((applyConfig ready s).regs regPoc2).getLsbD p then 0 else tagged⟩, ?_, ?_, ?_⟩
    · rw [getVlanPorts, if_neg (Nat.not_le.mpr hv), hf]
      show Except.ok (List.map _ (List.filter _ _)) = _
      rw [List.filter_congr hmsc]
    · ext k
      rw [hm.ports i vid hs]
      simp [portIds, maskPorts]
    · rw [List.map_map]
      show (List.map (fun p => p) _).Nodup
      rw [List.map_id']
      exact List.nodup_range.filter _

theorem resetSwitch_vlans (hw : Hw) (s : Esw) : (resetSwitch hw s).vlans = fun _ => ⟨0, 0⟩ := rfl

/-- after the reset, and any calls: the slots hold the last successful sets, each VID at most once; a
call with valid arguments fails only if all slots are in use for other VIDs; and the sets are
what is read back once the configuration is applied -/
theorem vlans_refine (hw : Hw) (s : Esw) (ops : List Op) :
    let s0 := resetSwitch hw s
    let s1 := run s0 ops
    (∀ (ready : Nat → Bool) (vid : Nat), vid < numVids →
      let got := getVlanPorts (applyConfig ready { s1 with globalVlanEnable := true }) vid
      let last := lastSet (log s0 ops) vid
      (last = none ∨ last = some ∅ → got = .error eInval) ∧
      ∀ ids, last = some ids → ids ≠ ∅ → ∃ l, got = .ok l ∧ portIds l = ids ∧ (l.map SwitchPort.id).Nodup) ∧
    (∀ i j, (s1.vlans i).ports ≠ 0 → (s1.vlans j).ports ≠ 0 → (s1.vlans i).vid = (s1.vlans j).vid → i = j) ∧
    ∀ val, Valid val → (setVlanPorts s1 val).2 ≠ 0 →
      ∀ i, (s1.vlans i).ports ≠ 0 ∧ (s1.vlans i).vid.toNat ≠ val.portVlan := by
  intro s0 s1
  have h0 : Refines s0.vlans fun _ => ∅ := by
    rw [resetSwitch_vlans]
    exact refines_zero
  have hm := refines_run h0 ops
  refine ⟨fun ready vid hv => ?_, fun i j hi hj hij => ?_, fun val hval hret i => ?_⟩
  · have hread := getVlanPorts_applyConfig (s := { s1 with globalVlanEnable := true }) rfl hm ready hv
    refine ⟨fun hlast => ?_, fun ids hlast hids => ?_⟩
    · have hempty : mapOf (log s0 ops) vid = ∅ := by
        obtain h | h := hlast <;> exact congrArg (Option.getD · ∅) h
      obtain ⟨_, hgot⟩ | ⟨hne, _⟩ := hread
      · exact hgot
      · exact absurd hempty hne
    · have hset : mapOf (log s0 ops) vid = ids := congrArg (Option.getD · ∅) hlast
      rw [hset] at hread
      obtain ⟨hempty, _⟩ | ⟨_, hgot⟩ := hread
      · exact absurd hempty hids
      · exact hgot
  · exact hm.distinct i j _ ⟨rfl, hi⟩ ⟨congrArg BitVec.toNat hij.symm, hj⟩
  · obtain ⟨_, _, hnone⟩ | ⟨_, _, h0, _⟩ := setVlanPorts_cases s1 val
    · exact findSlot_none (hnone hval) i
    · exact absurd h0 hret

-- the VID 4095 is a VLAN like the others; the slot of VID 1 is freed and used again
example :
    let p : Nat → SwitchPort := fun id => ⟨id, 0⟩
    let s : Esw := ⟨fun _ => 0xffffffff, 0, 0, false, false, 0, 0, fun _ => ⟨0, 0⟩,
      fun _ => ⟨false, false, false, 0, 0⟩⟩
    let s := run (resetSwitch ⟨0, 0, 0, [], none, fun _ => true⟩ s)
      [.setVlanPorts ⟨1, [p 0, p 6]⟩, .setVlanPorts ⟨4095, [p 1]⟩, .setVlanPorts ⟨1, []⟩,
        .setVlanPorts ⟨2, [p 2, p 7]⟩, .setVlanPorts ⟨3, [p 3, p 6, p 3]⟩, .setVlanEnable 1]
    [1, 2, 3, 4095].map (fun vid => ((getVlanPorts (applyConfig (fun _ => true) s) vid).toOption.map
      (List.map SwitchPort.id))) = [none, none, some [3, 6], some [1]] := by
  decide +kernel

end Rt3050
