import Firmware.Switch.Rtl8366

/-!
# rtl8366: the PVID of one port

A port has its PVID through an entry of the table of member configurations, and
`rtl8366_set_pvid` writes one of these entries.  The loop that replaces an entry asks whether a port
refers to it, the loop that takes an empty one does not; after `rtl8366_reset_vlan` ports refer to
empty entries.

* `fillMc_spec`       the ports that refer to the entry get the new PVID, the others keep theirs;
* `Local`             a call concerns its port only;
* `Spares`            the empty entry that is taken has no other port;
* `setPvid_local_iff` a call is local exactly then.
-/

set_option linter.unusedVariables false

namespace Rtl8366

variable {c : Chip} {s : Smi}

/-! ## the PVIDs -/

theorem getPvid_of_lt {port : Nat} (h : port < c.numPorts) :
    getPvid c s port = s.mc[s.mcIndex port]?.map VlanMc.vid := by
  unfold getPvid getMcIndex
  rw [if_pos h]
  rfl

theorem getPvid_of_not {port : Nat} (h : ¬ port < c.numPorts) : getPvid c s port = none := by
  unfold getPvid getMcIndex
  rw [if_neg h]
  rfl

/-- an entry is written and `port` refers to it -/
structure Filled (c : Chip) (s s' : Smi) (port i vid : Nat) : Prop where
  mine : getPvid c s' port = some (UInt16.ofNat vid)
  user : ∀ q, q < c.numPorts → s.mcIndex q = i → getPvid c s' q = some (UInt16.ofNat vid)
  other : ∀ q, q ≠ port → s.mcIndex q ≠ i → getPvid c s' q = getPvid c s q

theorem setMcIndex_spec {port i : Nat} (hp : port < c.numPorts) (s : Smi) :
    (setMcIndex c s port i).2 = 0 ∧ (setMcIndex c s port i).1.mc = s.mc ∧
    (setMcIndex c s port i).1.mcIndex = Function.update s.mcIndex port i := by
  unfold setMcIndex
  rw [if_pos hp]
  exact ⟨rfl, rfl, rfl⟩

theorem setMcIndex_fails {port : Nat} (hp : ¬ port < c.numPorts) (s : Smi) (i : Nat) :
    (setMcIndex c s port i).2 = eInval := by
  unfold setMcIndex
  rw [if_neg hp]

/-- writing entry `i`, with the VID of a call -/
theorem filled {s s' : Smi} {port i vid : Nat} {e : VlanMc} (hp : port < c.numPorts)
    (hi : i < s.mc.length) (hmc : s'.mc = s.mc.set i e) (hidx : s'.mcIndex = Function.update s.mcIndex port i)
    (he : e.vid = UInt16.ofNat vid) : Filled c s s' port i vid := by
  have hself : s'.mc[i]? = some e := by rw [hmc, List.getElem?_set_self hi]
  have hread : ∀ q, q < c.numPorts → s'.mcIndex q = i → getPvid c s' q = some (UInt16.ofNat vid) := by
    intro q hq hqi
    rw [getPvid_of_lt hq, hqi, hself, Option.map_some, he]
  refine ⟨hread port hp (by rw [hidx, Function.update_self]), fun q hq hqi => ?_, fun q hne hqi => ?_⟩
  · refine hread q hq ?_
    rw [hidx]
    by_cases hqp : q = port
    · rw [hqp, Function.update_self]
    · rw [Function.update_of_ne hqp, hqi]
  · by_cases hq : q < c.numPorts
    · rw [getPvid_of_lt hq, getPvid_of_lt hq, hidx, Function.update_of_ne hne, hmc,
        List.getElem?_set_ne fun h => hqi h.symm]
    · rw [getPvid_of_not hq, getPvid_of_not hq]

theorem fillMc_spec {port i : Nat} (hp : port < c.numPorts) (hi : i < s.mc.length) (vid : Nat)
    (vlanmc : VlanMc) : (fillMc c s port vid i vlanmc).2 = 0 ∧
      Filled c s (fillMc c s port vid i vlanmc).1 port i vid := by
  unfold fillMc
  dsimp only
  obtain ⟨h1, h2, h3⟩ := setMcIndex_spec (i := i) hp (setVlanMc s i { vlanmc with
    vid := UInt16.ofNat vid, member := (getVlan4k s vid).member, untag := (getVlan4k s vid).untag,
    fid := (getVlan4k s vid).fid })
  exact ⟨h1, filled hp hi h2 h3 rfl⟩

theorem fillMc_fails {port : Nat} (hp : ¬ port < c.numPorts) (s : Smi) (vid i : Nat)
    (vlanmc : VlanMc) : (fillMc c s port vid i vlanmc).2 = eInval := setMcIndex_fails hp _ _

/-! ## one call -/

/-- the entry of a VID -/
def findVid (s : Smi) (vid : Nat) : Option Nat := s.mc.findIdx? fun e => e.vid.toNat = vid

/-- the first empty entry -/
def findEmpty (s : Smi) : Option Nat := s.mc.findIdx? fun e => e.vid = 0 ∧ e.member = 0

/-- a successful call sets the PVID of its port and of no other; one that finds no entry changes
nothing -/
structure Local (c : Chip) (s : Smi) (port vid : Nat) : Prop where
  set : (setPvid c s port vid).2 = 0 →
    getPvid c (setPvid c s port vid).1 port = some (UInt16.ofNat vid) ∧
    ∀ q, q ≠ port → getPvid c (setPvid c s port vid).1 q = getPvid c s q
  full : (setPvid c s port vid).2 = eNospc →
    (∀ q, getPvid c (setPvid c s port vid).1 q = getPvid c s q) ∧ (setPvid c s port vid).1.mc = s.mc

/-- the VID has an entry, no entry is empty, or no other port refers to the first empty one -/
def Spares (c : Chip) (s : Smi) (port vid : Nat) : Prop :=
  findVid s vid = none → ∀ i, findEmpty s = some i → port < c.numPorts →
    ∀ q, q < c.numPorts → q ≠ port → s.mcIndex q ≠ i

/-- which entry a call writes, if any -/
inductive Picks (c : Chip) (s : Smi) (port vid : Nat) : Prop where
  /-- the entry of the VID, which stays as it is -/
  | found (i : Nat) (e : VlanMc) (hf : findVid s vid = some i) (hi : s.mc[i]? = some e)
      (he : e.vid.toNat = vid) (h : setPvid c s port vid = setMcIndex c (setVlanMc s i e) port i)
  | empty (i : Nat) (e : VlanMc) (hn : findVid s vid = none) (hf : findEmpty s = some i)
      (hi : s.mc[i]? = some e) (he : e.vid = 0) (h : setPvid c s port vid = fillMc c s port vid i e)
  | unused (i : Nat) (e : VlanMc) (hn : findVid s vid = none) (hf : findEmpty s = none)
      (hi : i < s.mc.length) (hu : mcIsUsed c s i = false)
      (h : setPvid c s port vid = fillMc c s port vid i e)
  | full (hf : findEmpty s = none) (h : setPvid c s port vid = (s, eNospc))

theorem setPvid_picks (c : Chip) (s : Smi) (port vid : Nat) : Picks c s port vid := by
  cases hv : findVid s vid with
  | some i =>
    obtain ⟨e, hi, he⟩ := findIdx?_get hv
    refine .found i e hv hi he ?_
    unfold findVid at hv
    unfold setPvid
    rw [hv]
    simp only [getVlanMc, hi]
  | none =>
    have hv' := hv
    unfold findVid at hv'
    cases hf : findEmpty s with
    | some i =>
      have hf' := hf
      unfold findEmpty at hf'
      obtain ⟨hlt, hp, -⟩ := List.findIdx?_eq_some_iff_getElem.mp hf'
      have hi : s.mc[i]? = some s.mc[i] := List.getElem?_eq_getElem hlt
      refine .empty i s.mc[i] hv hf hi (of_decide_eq_true hp).1 ?_
      unfold setPvid
      rw [hv', hf']
      simp only [getVlanMc, hi]
    | none =>
      have hf' := hf
      unfold findEmpty at hf'
      cases hu : (List.range s.mc.length).find? fun i => !mcIsUsed c s i with
      | none =>
        refine .full hf ?_
        unfold setPvid
        rw [hv', hf', hu]
      | some i =>
        have hlt := List.mem_range.mp (List.mem_of_find?_eq_some hu)
        have hunused := List.find?_some hu
        obtain ⟨e, he⟩ : ∃ e, s.mc.getLast? = some e := by
          cases hl : s.mc.getLast? with
          | some e => exact ⟨e, rfl⟩
          | none => exact absurd hlt (by rw [List.getLast?_eq_none_iff.mp hl]; exact Nat.not_lt_zero _)
        refine .unused i e hv hf hlt (by simpa using hunused) ?_
        unfold setPvid
        rw [hv', hf', hu, he]

theorem mcIsUsed_iff {i : Nat} : mcIsUsed c s i = true ↔ ∃ q < c.numPorts, s.mcIndex q = i := by
  unfold mcIsUsed
  rw [List.any_eq_true]
  constructor
  · rintro ⟨q, hq, h⟩
    exact ⟨q, List.mem_range.mp hq, of_decide_eq_true h⟩
  · rintro ⟨q, hq, h⟩
    exact ⟨q, List.mem_range.mpr hq, decide_eq_true h⟩

/-- a call that fails for another reason is not spoken about -/
theorem Local.of_inval {port vid : Nat} (h : (setPvid c s port vid).2 = eInval) : Local c s port vid :=
  ⟨fun h0 => absurd (h.symm.trans h0) (by decide), fun h0 => absurd (h.symm.trans h0) (by decide)⟩

/-- the entry that is written has no other port -/
theorem Local.of_filled {port i vid : Nat} (hz : (setPvid c s port vid).2 = 0)
    (hf : Filled c s (setPvid c s port vid).1 port i vid)
    (hfree : ∀ q, q < c.numPorts → q ≠ port → s.mcIndex q ≠ i) : Local c s port vid := by
  refine ⟨fun _ => ⟨hf.mine, fun q hq => ?_⟩, fun h0 => absurd (hz.symm.trans h0) (by decide)⟩
  by_cases hlt : q < c.numPorts
  · exact hf.other q hq (hfree q hlt hq)
  · rw [getPvid_of_not hlt, getPvid_of_not hlt]

theorem local_found {port vid i : Nat} {e : VlanMc} (hlt : vid < numVids) (hi : s.mc[i]? = some e)
    (he : e.vid.toNat = vid) (h : setPvid c s port vid = setMcIndex c (setVlanMc s i e) port i) :
    Local c s port vid := by
  by_cases hp : port < c.numPorts
  · obtain ⟨hz, hmc, hidx⟩ := setMcIndex_spec (i := i) hp (setVlanMc s i e)
    rw [← h] at hz hmc hidx
    have hvid : e.vid = UInt16.ofNat vid := UInt16.toNat_inj.mp (he.trans (toNat_ofNat hlt).symm)
    obtain ⟨hil, hie⟩ := List.getElem?_eq_some_iff.mp hi
    have hf := filled hp hil hmc hidx hvid
    -- the entry is written back as it was: also its other ports keep their PVID
    have hsame : (setPvid c s port vid).1.mc = s.mc := by
      rw [hmc]
      show s.mc.set i e = s.mc
      rw [← hie]
      exact List.set_getElem_self hil
    refine ⟨fun _ => ⟨hf.mine, fun q hq => ?_⟩, fun h0 => absurd (hz.symm.trans h0) (by decide)⟩
    by_cases hlt : q < c.numPorts
    · rw [getPvid_of_lt hlt, getPvid_of_lt hlt, hsame, hidx, Function.update_of_ne hq]
      rfl
    · rw [getPvid_of_not hlt, getPvid_of_not hlt]
  · exact .of_inval (by rw [h]; exact setMcIndex_fails hp _ i)

theorem Spares.local {port vid : Nat} (hlt : vid < numVids) (hs : Spares c s port vid) :
    Local c s port vid := by
  cases setPvid_picks c s port vid with
  | found i e hf hi he h => exact local_found hlt hi he h
  | empty i e hn hf hi he h =>
    by_cases hp : port < c.numPorts
    · obtain ⟨hil, -⟩ := List.getElem?_eq_some_iff.mp hi
      have hspec := fillMc_spec hp hil vid e
      rw [← h] at hspec
      exact .of_filled hspec.1 hspec.2 (hs hn i hf hp)
    · exact .of_inval (by rw [h]; exact fillMc_fails hp s vid i e)
  | unused i e hn hf hi hu h =>
    by_cases hp : port < c.numPorts
    · have hspec := fillMc_spec hp hi vid e
      rw [← h] at hspec
      refine .of_filled hspec.1 hspec.2 fun q hq _ hqi => ?_
      rw [mcIsUsed_iff.mpr ⟨q, hq, hqi⟩] at hu
      cases hu
    · exact .of_inval (by rw [h]; exact fillMc_fails hp s vid i e)
  | full hf h =>
    rw [Prod.ext_iff] at h
    have hne : eNospc ≠ 0 := by decide
    refine ⟨fun h0 => absurd (h.2.symm.trans h0) hne, fun _ => ?_⟩
    rw [h.1]
    exact ⟨fun _ => rfl, rfl⟩

/-- the other port that refers to the empty entry gets the PVID too -/
theorem Local.spares {port vid : Nat} (hpos : 0 < vid) (hlt : vid < numVids)
    (hl : Local c s port vid) : Spares c s port vid := by
  intro hn i hf hp q hq hqp hqi
  cases setPvid_picks c s port vid with
  | found j e hj hi he h => rw [hn] at hj; cases hj
  | empty j e hn' hj hi he h =>
    obtain rfl := Option.some.inj (hf.symm.trans hj)
    obtain ⟨hil, -⟩ := List.getElem?_eq_some_iff.mp hi
    have hspec := fillMc_spec hp hil vid e
    rw [← h] at hspec
    have hold : getPvid c s q = some 0 := by rw [getPvid_of_lt hq, hqi, hi, Option.map_some, he]
    have hnew := ((hl.set hspec.1).2 q hqp).symm.trans (hspec.2.user q hq hqi)
    rw [hold] at hnew
    have h0 : vid = 0 := by
      rw [← toNat_ofNat hlt, ← Option.some.inj hnew]
      rfl
    omega
  | unused j e hn' hj hi hu h => rw [hf] at hj; cases hj
  | full hn' h => rw [hf] at hn'; cases hn'

/-- **A PVID is set for one port only** exactly if the empty entry that is taken has no other port;
in every state, so after every sequence of calls. -/
theorem setPvid_local_iff (c : Chip) (s : Smi) (ops : List Op) (port : Nat) (vid : Vid) :
    Local c (run c s ops) port vid.val ↔ Spares c (run c s ops) port vid.val :=
  ⟨Local.spares vid.pos vid.lt, Spares.local vid.lt⟩

/-- the tables after power-on -/
def cleared : Smi := ⟨List.replicate 16 ⟨0, 0, 0, 0, 0⟩, fun _ => ⟨0, 0, 0, 0⟩, fun _ => 0, false, false⟩

/-- after the reset that follows the init, the PVID 7 of port 3 is that of port 0 too -/
theorem setPvid_shared :
    ¬ Local rtl8366s (run rtl8366s cleared [.initVlan, .resetVlan]) 3 7 ∧
    (setPvid rtl8366s (run rtl8366s cleared [.initVlan, .resetVlan]) 3 7).2 = 0 ∧
    getPvid rtl8366s (run rtl8366s cleared [.initVlan, .resetVlan]) 0 = some 0 ∧
    getPvid rtl8366s (setPvid rtl8366s (run rtl8366s cleared [.initVlan, .resetVlan]) 3 7).1 0
      = some 7 := by
  have hz : (setPvid rtl8366s (run rtl8366s cleared [.initVlan, .resetVlan]) 3 7).2 = 0 := by
    decide +kernel
  have hold : getPvid rtl8366s (run rtl8366s cleared [.initVlan, .resetVlan]) 0 = some 0 := by
    decide +kernel
  have hnew : getPvid rtl8366s (setPvid rtl8366s (run rtl8366s cleared [.initVlan, .resetVlan]) 3 7).1 0
      = some 7 := by decide +kernel
  refine ⟨fun h => ?_, hz, hold, hnew⟩
  have hsame := (h.set hz).2 0 (by decide)
  rw [hold, hnew] at hsame
  exact absurd hsame (by decide)

end Rtl8366
