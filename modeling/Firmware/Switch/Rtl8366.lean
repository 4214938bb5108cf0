import Mathlib.Data.List.Basic
import Mathlib.Logic.Function.Basic

/-!
# rtl8366: the member configurations

The VLAN part of `rtl8366_smi.c`. The switch has a table of all VLANs, by their VID, and a few
member configurations; a port refers to one of these. The operations of the chip on the tables
are plain reads and writes.

* `setVlan`, `setPvid`    the two functions that write member configurations;
* `Op`, `step`            the calls from swconfig;
* `Consistent`            a member configuration in use is a copy of the entry of its VLAN, and
                          the only one;
* `run_consistent`        so it is after every sequence of calls.
-/

set_option linter.unusedVariables false

namespace Rtl8366

def eInval : Int := -22
def eNospc : Int := -28

def numVids : Nat := 4096

structure VlanMc where
  vid : UInt16
  untag : UInt16
  member : UInt16
  fid : UInt8
  priority : UInt8

structure Vlan4k where
  vid : UInt16
  untag : UInt16
  member : UInt16
  fid : UInt8

/-- `numVlans` bounds the VIDs while the large table is disabled -/
structure Chip where
  numPorts : Nat
  cpuPort : Nat
  numVlans : Nat
  ports_le : numPorts ≤ 32
  vlans_le : numVlans ≤ numVids

def rtl8366s : Chip := ⟨6, 5, 16, by decide, by decide⟩

structure Smi where
  mc : List VlanMc
  vlan4k : Nat → Vlan4k
  mcIndex : Nat → Nat
  vlanEnabled : Bool
  vlan4kEnabled : Bool

/-! ## the operations of the chip -/

def getVlan4k (s : Smi) (vid : Nat) : Vlan4k := { s.vlan4k vid with vid := UInt16.ofNat vid }

def setVlan4k (s : Smi) (e : Vlan4k) : Smi :=
  { s with vlan4k := Function.update s.vlan4k e.vid.toNat e }

/-- `none` is `-EINVAL` -/
def getVlanMc (s : Smi) (i : Nat) : Option VlanMc := s.mc[i]?

def setVlanMc (s : Smi) (i : Nat) (e : VlanMc) : Smi := { s with mc := s.mc.set i e }

def getMcIndex (c : Chip) (s : Smi) (port : Nat) : Option Nat :=
  if port < c.numPorts then some (s.mcIndex port) else none

def setMcIndex (c : Chip) (s : Smi) (port i : Nat) : Smi × Int :=
  if port < c.numPorts then ({ s with mcIndex := Function.update s.mcIndex port i }, 0) else (s, eInval)

def isVlanValid (c : Chip) (s : Smi) (vlan : Nat) : Bool :=
  vlan ≠ 0 && decide (vlan < if s.vlan4kEnabled then numVids - 1 else c.numVlans)

def enableVlan (s : Smi) (enable : Bool) : Smi :=
  if enable then { s with vlanEnabled := true } else { s with vlanEnabled := false, vlan4kEnabled := false }

def enableVlan4k (s : Smi) (enable : Bool) : Smi :=
  if enable then { s with vlanEnabled := true, vlan4kEnabled := true } else { s with vlan4kEnabled := false }

/-! ## the tables -/

def mcIsUsed (c : Chip) (s : Smi) (i : Nat) : Bool := (List.range c.numPorts).any fun p => s.mcIndex p = i

def setVlan (s : Smi) (vid : Nat) (member untag fid : UInt32) : Smi :=
  let vlan4k := getVlan4k s vid
  let s := setVlan4k s
    { vlan4k with member := member.toUInt16, untag := untag.toUInt16, fid := fid.toUInt8 }
  match s.mc.findIdx? fun e => e.vid.toNat = vid with
  | none => s
  | some i =>
    match getVlanMc s i with
    | none => s
    | some e => setVlanMc s i
        { e with member := member.toUInt16, untag := untag.toUInt16, fid := fid.toUInt8 }

def getPvid (c : Chip) (s : Smi) (port : Nat) : Option UInt16 :=
  (getMcIndex c s port).bind fun i => (getVlanMc s i).map VlanMc.vid

/-- "Update the entry from the 4K table"; `vlanmc` is what the loops before left in the struct -/
def fillMc (c : Chip) (s : Smi) (port vid i : Nat) (vlanmc : VlanMc) : Smi × Int :=
  let vlan4k := getVlan4k s vid
  setMcIndex c (setVlanMc s i { vlanmc with
    vid := UInt16.ofNat vid
    member := vlan4k.member
    untag := vlan4k.untag
    fid := vlan4k.fid }) port i

def setPvid (c : Chip) (s : Smi) (port vid : Nat) : Smi × Int :=
  match s.mc.findIdx? fun e => e.vid.toNat = vid with
  | some i =>
    match getVlanMc s i with
    | none => (s, eInval)
    | some vlanmc => setMcIndex c (setVlanMc s i vlanmc) port i
  | none =>
    match s.mc.findIdx? fun e => e.vid = 0 ∧ e.member = 0 with
    | some i =>
      match getVlanMc s i with
      | none => (s, eInval)
      | some vlanmc => fillMc c s port vid i vlanmc
    | none =>
      match (List.range s.mc.length).find? fun i => !mcIsUsed c s i, s.mc.getLast? with
      | some i, some vlanmc => fillMc c s port vid i vlanmc
      | _, _ => (s, eNospc)

def resetVlan (s : Smi) : Smi :=
  let s := enableVlan4k (enableVlan s false) false
  { s with mc := s.mc.map fun _ => ⟨0, 0, 0, 0, 0⟩ }

def bit (port : Nat) : UInt32 := 1 <<< UInt32.ofNat port

/-- the loop of `rtl8366_init_vlan` over the ports -/
def initPorts (c : Chip) : List Nat → Smi → Smi × Int
  | [], s => (enableVlan s true, 0)
  | port :: l, s =>
    let mask := if port = c.cpuPort then bit c.numPorts - 1 else bit port ||| bit c.cpuPort
    let r := setPvid c (setVlan s (port + 1) mask mask 0) port (port + 1)
    if r.2 ≠ 0 then r else initPorts c l r.1

def initVlan (c : Chip) (s : Smi) : Smi × Int := initPorts c (List.range c.numPorts) (resetVlan s)

/-! ## swconfig -/

/-- the loop of `rtl8366_sw_set_vlan_ports`: the ports, with their flag `TAGGED` -/
def setPorts (c : Chip) (vid : Nat) : List (Nat × Bool) → UInt32 → UInt32 → Smi → Smi × Int
  | [], member, untag, s => (setVlan s vid member untag 0, 0)
  | (id, tagged) :: l, member, untag, s =>
    let member := member ||| bit id
    let untag := if tagged then untag else untag ||| bit id
    match getPvid c s id with
    | none => (s, eInval)
    | some pvid =>
      if pvid = 0 then
        let r := setPvid c s id vid
        if r.2 < 0 then r else setPorts c vid l member untag r.1
      else setPorts c vid l member untag s

def swSetVlanPorts (c : Chip) (s : Smi) (vid : Nat) (ports : List (Nat × Bool)) : Smi × Int :=
  if isVlanValid c s vid then setPorts c vid ports 0 0 s else (s, eInval)

def swSetVlanFid (c : Chip) (s : Smi) (vid : Nat) (fid max : Int) : Smi × Int :=
  if isVlanValid c s vid then
    if fid < 0 ∨ fid > max then (s, eInval)
    else
      let e := getVlan4k s vid
      (setVlan s vid e.member.toUInt32 e.untag.toUInt32 (UInt32.ofNat fid.toNat), 0)
  else (s, eInval)

/-- a VID that `rtl8366_sw_set_port_pvid` is called with; it has no check of its own -/
structure Vid where
  val : Nat
  pos : 0 < val
  lt : val < numVids

inductive Op where
  | resetVlan
  | initVlan
  | setVlanPorts (vid : Nat) (ports : List (Nat × Bool))
  | setVlanFid (vid : Nat) (fid max : Int)
  | setPortPvid (port : Nat) (vid : Vid)
  | setVlanEnable (ofs : Nat) (enable : Bool)

def step (c : Chip) (s : Smi) : Op → Smi × Int
  | .resetVlan => (resetVlan s, 0)
  | .initVlan => initVlan c s
  | .setVlanPorts vid ports => swSetVlanPorts c s vid ports
  | .setVlanFid vid fid max => swSetVlanFid c s vid fid max
  | .setPortPvid port vid => setPvid c s port vid.val
  | .setVlanEnable ofs enable =>
    if ofs > 2 then (s, eInval)
    else if ofs = 1 then (enableVlan s enable, 0)
    else (enableVlan4k s enable, 0)

def run (c : Chip) (s : Smi) (ops : List Op) : Smi := ops.foldl (fun s op => (step c s op).1) s

/-! ## consistency -/

/-- `a` is a copy of the entry of its VLAN -/
def IsCopy (s : Smi) (a : VlanMc) : Prop :=
  a.member = (s.vlan4k a.vid.toNat).member ∧ a.untag = (s.vlan4k a.vid.toNat).untag ∧
    a.fid = (s.vlan4k a.vid.toNat).fid

/-- the member configurations in use have distinct VIDs, and are copies -/
structure Consistent (s : Smi) : Prop where
  distinct : ∀ (i j : Nat) (a b : VlanMc), s.mc[i]? = some a → s.mc[j]? = some b →
    a.vid ≠ 0 → a.vid = b.vid → i = j
  copy : ∀ a ∈ s.mc, a.vid ≠ 0 → IsCopy s a

/-- the tables are all that matters -/
theorem Consistent.congr {s s' : Smi} (h : Consistent s) (hm : s'.mc = s.mc)
    (h4 : s'.vlan4k = s.vlan4k) : Consistent s' :=
  ⟨hm.symm ▸ h.distinct, by unfold IsCopy; rw [hm, h4]; exact h.copy⟩

theorem consistent_resetVlan (s : Smi) : Consistent (resetVlan s) := by
  have h0 : ∀ a ∈ (resetVlan s).mc, a.vid = 0 := by
    intro a ha
    obtain ⟨_, _, rfl⟩ := List.mem_map.mp ha
    rfl
  refine ⟨fun i j a b ha _ hne _ => ?_, fun a ha hne => ?_⟩
  · exact absurd (h0 a (List.mem_of_getElem? ha)) hne
  · exact absurd (h0 a ha) hne

/-- one entry is written: it is a copy, the others are, and none of them has its VID -/
theorem consistent_set {s : Smi} {i : Nat} {e : VlanMc}
    (hd : ∀ (j k : Nat) (a b : VlanMc), s.mc[j]? = some a → s.mc[k]? = some b → a.vid ≠ 0 →
      a.vid = b.vid → j = k)
    (hothers : ∀ (j : Nat) (a : VlanMc), j ≠ i → s.mc[j]? = some a → a.vid ≠ e.vid ∧
      (a.vid ≠ 0 → IsCopy s a)) (he : IsCopy s e) : Consistent (setVlanMc s i e) := by
  have hget : ∀ (j : Nat) (b : VlanMc), (setVlanMc s i e).mc[j]? = some b →
      (j = i ∧ b = e) ∨ (j ≠ i ∧ s.mc[j]? = some b) := by
    intro j b hb
    rw [setVlanMc, List.getElem?_set] at hb
    by_cases hj : i = j
    · rw [if_pos hj] at hb
      split at hb
      · exact Or.inl ⟨hj.symm, (Option.some.inj hb).symm⟩
      · cases hb
    · rw [if_neg hj] at hb
      exact Or.inr ⟨fun h => hj h.symm, hb⟩
  refine ⟨fun j k a b ha hb hne heq => ?_, fun a ha hne => ?_⟩
  · obtain ⟨hj, hae⟩ | ⟨hj, ha⟩ := hget j a ha <;> obtain ⟨hk, hbe⟩ | ⟨hk, hb⟩ := hget k b hb
    · exact hj.trans hk.symm
    · exact absurd (heq.symm.trans (congrArg VlanMc.vid hae)) (hothers k b hk hb).1
    · exact absurd (heq.trans (congrArg VlanMc.vid hbe)) (hothers j a hj ha).1
    · exact hd j k a b ha hb hne heq
  · obtain ⟨j, hj⟩ := List.getElem?_of_mem ha
    obtain ⟨_, rfl⟩ | ⟨hji, hj⟩ := hget j a hj
    · exact he
    · exact (hothers j a hji hj).2 hne

/-- a VID fits the field of the structs -/
theorem toNat_ofNat {vid : Nat} (h : vid < numVids) : (UInt16.ofNat vid).toNat = vid :=
  UInt16.toNat_ofNat_of_lt' (Nat.lt_trans h (by decide))

/-- the entry that a search found -/
theorem findIdx?_get {l : List VlanMc} {vid i : Nat}
    (h : l.findIdx? (fun e => decide (e.vid.toNat = vid)) = some i) :
    ∃ a, l[i]? = some a ∧ a.vid.toNat = vid := by
  obtain ⟨hi, hp, _⟩ := List.findIdx?_eq_some_iff_getElem.mp h
  exact ⟨l[i], List.getElem?_eq_getElem hi, by simpa using hp⟩

theorem Consistent.setVlan {s : Smi} (h : Consistent s) {vid : Nat} (hpos : 0 < vid)
    (hlt : vid < numVids) (member untag fid : UInt32) : Consistent (setVlan s vid member untag fid) := by
  have hv := toNat_ofNat hlt
  unfold Rtl8366.setVlan
  simp only
  generalize hs : setVlan4k s { getVlan4k s vid with
    member := member.toUInt16, untag := untag.toUInt16, fid := fid.toUInt8 } = s₁
  have hmc : s₁.mc = s.mc := by rw [← hs]; rfl
  have hnew : s₁.vlan4k vid = ⟨UInt16.ofNat vid, untag.toUInt16, member.toUInt16, fid.toUInt8⟩ := by
    rw [← hs]
    show Function.update s.vlan4k (UInt16.ofNat vid).toNat _ vid = _
    rw [hv, Function.update_self]
    rfl
  have hold : ∀ v, v ≠ vid → s₁.vlan4k v = s.vlan4k v := by
    intro v hne
    rw [← hs]
    show Function.update s.vlan4k (UInt16.ofNat vid).toNat _ v = _
    rw [hv, Function.update_of_ne hne]
  -- the entries of the other VLANs are still copies
  have hrest : ∀ a ∈ s.mc, a.vid.toNat ≠ vid → a.vid ≠ 0 → IsCopy s₁ a := by
    intro a ha hvid hne
    unfold IsCopy
    rw [hold _ hvid]
    exact h.copy a ha hne
  split
  · next hnone =>
    rw [hmc, List.findIdx?_eq_none_iff] at hnone
    refine ⟨hmc.symm ▸ h.distinct, fun a ha hne => ?_⟩
    rw [hmc] at ha
    exact hrest a ha (by simpa using hnone a ha) hne
  next i hsome =>
  obtain ⟨a, ha, hvid⟩ := findIdx?_get hsome
  have ha' : s.mc[i]? = some a := hmc ▸ ha
  rw [getVlanMc, ha]
  refine consistent_set (hmc.symm ▸ h.distinct) (fun j b hj hb => ?_) ?_
  · rw [hmc] at hb
    have hne : b.vid ≠ a.vid := by
      intro e
      have h0 : b.vid ≠ 0 := by
        intro e0
        rw [← hvid, ← e, e0] at hpos
        exact absurd hpos (by decide)
      exact hj (h.distinct j i b a hb ha' h0 e)
    refine ⟨hne, hrest b (List.mem_of_getElem? hb) fun e => hne ?_⟩
    exact UInt16.toNat_inj.mp (e.trans hvid.symm)
  · unfold IsCopy
    show _ = (s₁.vlan4k a.vid.toNat).member ∧ _ = (s₁.vlan4k a.vid.toNat).untag ∧
      _ = (s₁.vlan4k a.vid.toNat).fid
    rw [hvid, hnew]
    exact ⟨rfl, rfl, rfl⟩

theorem setMcIndex_tables (c : Chip) (s : Smi) (port i : Nat) :
    (setMcIndex c s port i).1.mc = s.mc ∧ (setMcIndex c s port i).1.vlan4k = s.vlan4k := by
  unfold setMcIndex
  split <;> exact ⟨rfl, rfl⟩

/-- a new entry for a VLAN that has none -/
theorem Consistent.fillMc {c : Chip} {s : Smi} (h : Consistent s) {vid : Nat} (hlt : vid < numVids)
    (hnone : ∀ a ∈ s.mc, a.vid.toNat ≠ vid) (port i : Nat) (vlanmc : VlanMc) :
    Consistent (fillMc c s port vid i vlanmc).1 := by
  have hv := toNat_ofNat hlt
  unfold Rtl8366.fillMc
  obtain ⟨hm, h4⟩ := setMcIndex_tables c (setVlanMc s i { vlanmc with
    vid := UInt16.ofNat vid, member := (getVlan4k s vid).member, untag := (getVlan4k s vid).untag,
    fid := (getVlan4k s vid).fid }) port i
  refine Consistent.congr (consistent_set h.distinct (fun j a _ ha => ⟨fun e => ?_, ?_⟩) ?_) hm h4
  · exact hnone a (List.mem_of_getElem? ha) (e ▸ hv)
  · exact h.copy a (List.mem_of_getElem? ha)
  · unfold IsCopy
    show _ = (s.vlan4k (UInt16.ofNat vid).toNat).member ∧ _ = (s.vlan4k (UInt16.ofNat vid).toNat).untag ∧
      _ = (s.vlan4k (UInt16.ofNat vid).toNat).fid
    rw [hv]
    exact ⟨rfl, rfl, rfl⟩

theorem Consistent.setPvid {c : Chip} {s : Smi} (h : Consistent s) {vid : Nat} (hlt : vid < numVids)
    (port : Nat) : Consistent (setPvid c s port vid).1 := by
  unfold Rtl8366.setPvid
  split
  · next i hsome =>
    -- the entry is written back as it was
    obtain ⟨a, ha, _⟩ := findIdx?_get hsome
    rw [getVlanMc, ha]
    obtain ⟨hm, h4⟩ := setMcIndex_tables c (setVlanMc s i a) port i
    refine h.congr (hm.trans ?_) h4
    obtain ⟨hi, rfl⟩ := List.getElem?_eq_some_iff.mp ha
    exact List.set_getElem_self hi
  next hnone =>
  have hnone : ∀ a ∈ s.mc, a.vid.toNat ≠ vid := by
    intro a ha
    simpa using List.findIdx?_eq_none_iff.mp hnone a ha
  split
  · next i hsome =>
    split
    · exact h
    · next vlanmc _ => exact h.fillMc hlt hnone port i vlanmc
  split
  · next i vlanmc _ _ => exact h.fillMc hlt hnone port i vlanmc
  · exact h

/-! ## runs -/

theorem consistent_enableVlan {s : Smi} (h : Consistent s) (enable : Bool) :
    Consistent (enableVlan s enable) := by
  cases enable <;> exact h.congr rfl rfl

theorem consistent_enableVlan4k {s : Smi} (h : Consistent s) (enable : Bool) :
    Consistent (enableVlan4k s enable) := by
  cases enable <;> exact h.congr rfl rfl

theorem consistent_initPorts (c : Chip) {l : List Nat} (hl : ∀ p ∈ l, p < 32) {s : Smi}
    (h : Consistent s) : Consistent (initPorts c l s).1 := by
  induction l generalizing s with
  | nil => exact consistent_enableVlan h true
  | cons port l ih =>
    have hp : port + 1 < numVids := by
      have := hl port List.mem_cons_self
      unfold numVids
      omega
    have hs := fun mask => (h.setVlan (Nat.succ_pos port) hp mask mask 0).setPvid (c := c) hp port
    unfold initPorts
    simp only
    generalize (if port = c.cpuPort then bit c.numPorts - 1 else bit port ||| bit c.cpuPort) = mask
    split
    · exact hs mask
    · exact ih (fun p hp => hl p (List.mem_cons_of_mem _ hp)) (hs mask)

theorem valid_bounds {c : Chip} {s : Smi} {vid : Nat} (h : isVlanValid c s vid = true) :
    0 < vid ∧ vid < numVids := by
  have hc := c.vlans_le
  unfold isVlanValid at h
  rw [Bool.and_eq_true, decide_eq_true_eq, decide_eq_true_eq] at h
  unfold numVids at *
  obtain ⟨h0, h1⟩ := h
  refine ⟨Nat.pos_of_ne_zero h0, ?_⟩
  split at h1 <;> omega

theorem consistent_setPorts (c : Chip) {vid : Nat} (hpos : 0 < vid) (hlt : vid < numVids)
    (l : List (Nat × Bool)) : ∀ (member untag : UInt32) {s : Smi}, Consistent s →
      Consistent (setPorts c vid l member untag s).1 := by
  induction l with
  | nil => exact fun member untag s h => h.setVlan hpos hlt member untag 0
  | cons p l ih =>
    intro member untag s h
    obtain ⟨id, tagged⟩ := p
    unfold setPorts
    simp only
    split
    · exact h
    split
    · split
      · exact h.setPvid hlt id
      · exact ih _ _ (h.setPvid hlt id)
    · exact ih _ _ h

theorem consistent_step (c : Chip) {s : Smi} (h : Consistent s) (op : Op) :
    Consistent (step c s op).1 := by
  cases op with
  | resetVlan => exact consistent_resetVlan s
  | initVlan =>
    refine consistent_initPorts c (fun p hp => ?_) (consistent_resetVlan s)
    have := c.ports_le
    have := List.mem_range.mp hp
    omega
  | setVlanPorts vid ports =>
    show Consistent (swSetVlanPorts c s vid ports).1
    unfold swSetVlanPorts
    split
    · next hv => exact consistent_setPorts c (valid_bounds hv).1 (valid_bounds hv).2 ports 0 0 h
    · exact h
  | setVlanFid vid fid max =>
    show Consistent (swSetVlanFid c s vid fid max).1
    unfold swSetVlanFid
    split
    · next hv =>
      split
      · exact h
      · exact h.setVlan (valid_bounds hv).1 (valid_bounds hv).2 _ _ _
    · exact h
  | setPortPvid port vid => exact h.setPvid vid.lt port
  | setVlanEnable ofs enable =>
    simp only [step]
    split
    · exact h
    split
    · exact consistent_enableVlan h enable
    · exact consistent_enableVlan4k h enable

/-- **The member configurations are a cache of the VLAN table**, from the reset on. -/
theorem run_consistent (c : Chip) (s : Smi) (ops : List Op) :
    Consistent (run c (resetVlan s) ops) := by
  have hrun : ∀ s, Consistent s → Consistent (run c s ops) := by
    induction ops with
    | nil => exact fun s h => h
    | cons op ops ih => exact fun s h => ih _ (consistent_step c h op)
  exact hrun _ (consistent_resetVlan s)

-- after the init each port has its own VLAN; a port that changes it uses the same configuration
example :
    let s : Smi := ⟨List.replicate 16 ⟨7, 0, 0, 0, 0⟩, fun _ => ⟨0, 0, 0, 0⟩, fun _ => 0, false, false⟩
    let s := run rtl8366s s [.initVlan, .setPortPvid 0 ⟨3, by decide, by decide⟩]
    (List.range 6).map (fun port => (getPvid rtl8366s s port).map UInt16.toNat) =
      [some 3, some 2, some 3, some 4, some 5, some 6] := by
  decide +kernel

end Rtl8366
