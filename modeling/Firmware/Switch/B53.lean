import Mathlib.Data.Nat.Bitwise
import Mathlib.Data.List.Range
import Mathlib.Logic.Function.Basic

/-!
# b53: the VLAN table of the hardware

`b53_common.c`: the VLANs are configured in memory and written to the switch by an apply.  The BCM5325
and the BCM5365 have no command that clears the table: there the entries are cleared one by one, from
1 on.

* `entry`             the register of one entry, for the three families;
* `vlanSetPorts`, `apply`   the configuration, and the loops that write it;
* `Follows`           an entry of the hardware is the configured one;
* `apply_follows`     what an apply does to each entry;
* `Idle`              no apply has found members in VLAN 0;
* `run_follows_iff`   when the table follows the configuration after a run.
-/

set_option linter.unusedVariables false

namespace B53

def eInval : Int := -22

/-! ## chips -/

inductive Family where
  | bcm5325
  | bcm5365
  /-- the chips with a VLAN table access register -/
  | vta
deriving DecidableEq

/-- `enabledPorts` has the CPU port; the first two families have the ports below
`B53_N_PORTS_25` -/
structure Chip where
  family : Family
  coreRev : Nat
  enabledPorts : BitVec 9
  ports_lt : family ≠ .vta → enabledPorts.toNat < 2 ^ 6

def Chip.vlans (chip : Chip) : Nat :=
  match chip.family with
  | .bcm5325 => 16
  | .bcm5365 => 256
  | .vta => 4096

theorem Chip.vlans_pos (chip : Chip) : 0 < chip.vlans := by
  unfold Chip.vlans
  split <;> decide

/-! ## entries -/

structure Vlan where
  members : BitVec 9
  untag : BitVec 9

/-- the register that `b53_set_vlan_entry` writes -/
def entry (chip : Chip) (vid members untag : Nat) : Nat :=
  match chip.family with
  | .bcm5325 =>
    if members = 0 then 0
    else ((untag &&& 0x3f) <<< 6) ||| members |||
      (if chip.coreRev ≥ 3 then 2 ^ 24 ||| vid <<< 12 else 2 ^ 20)
  | .bcm5365 =>
    if members = 0 then 0 else ((untag &&& 0x1f) <<< 7) ||| members ||| 2 ^ 14
  | .vta => (untag <<< 9) ||| members

/-- the switch forwards by this entry -/
def isValid (chip : Chip) (raw : Nat) : Bool :=
  match chip.family with
  | .bcm5325 => raw.testBit (if chip.coreRev ≥ 3 then 24 else 20)
  | .bcm5365 => raw.testBit 14
  | .vta => true

def hwMembers (chip : Chip) (raw : Nat) : Nat :=
  if isValid chip raw then raw % 2 ^ (if chip.family = .vta then 9 else 6) else 0

def hwUntag (chip : Chip) (raw : Nat) : Nat :=
  match chip.family with
  | .bcm5325 => (raw >>> 6) % 2 ^ 6
  | .bcm5365 => (raw >>> 7) % 2 ^ 5
  | .vta => (raw >>> 9) % 2 ^ 9

/-! ## the device -/

structure Dev where
  vlans : Nat → Vlan
  pvid : Nat → BitVec 12
  enableVlan : Bool
  allowVid4095 : Bool
  /-- the VLAN table of the switch, and its default tags -/
  table : Nat → Nat
  defTag : Nat → Nat

/-- one turn of the loop of `b53_vlan_set_ports`; a port has a number and the flag `TAGGED` -/
def setPort (portVlan : Nat) (s : Vlan × (Nat → BitVec 12)) (p : Nat × Bool) :
    Vlan × (Nat → BitVec 12) :=
  let members := s.1.members ||| BitVec.twoPow 9 p.1
  if p.2 then (⟨members, s.1.untag⟩, s.2)
  else (⟨members, s.1.untag ||| BitVec.twoPow 9 p.1⟩,
    Function.update s.2 p.1 (BitVec.ofNat 12 portVlan))

def vlanSetPorts (chip : Chip) (d : Dev) (portVlan : Nat) (ports : List (Nat × Bool)) : Dev × Int :=
  if portVlan = 0 ∧ chip.family = .vta then (d, eInval)
  else if portVlan = 4095 ∧ d.allowVid4095 = false then (d, eInval)
  else
    let s := ports.foldl (setPort portVlan) (⟨0, 0⟩, d.pvid)
    ({ d with
        vlans := Function.update d.vlans portVlan
          ⟨s.1.members &&& chip.enabledPorts, s.1.untag &&& chip.enabledPorts⟩
        pvid := s.2 }, 0)

def setVlanEntry (chip : Chip) (table : Nat → Nat) (vid : Nat) (vlan : Vlan) : Nat → Nat :=
  Function.update table vid (entry chip vid vlan.members.toNat vlan.untag.toNat)

/-- "clear all vlan entries" -/
def clearTable (chip : Chip) (table : Nat → Nat) : Nat → Nat :=
  if chip.family = .vta then fun _ => 0
  else (List.range' 1 (chip.vlans - 1)).foldl (fun t i => setVlanEntry chip t i ⟨0, 0⟩) table

/-- "fill VLAN table" -/
def fillTable (chip : Chip) (d : Dev) (table : Nat → Nat) : Nat → Nat :=
  (List.range chip.vlans).foldl
    (fun t i => if (d.vlans i).members = 0 then t else setVlanEntry chip t i (d.vlans i)) table

/-- `b53_apply`, without the registers that do not depend on the VLANs -/
def apply (chip : Chip) (d : Dev) : Dev :=
  let table := clearTable chip d.table
  { d with
    table := if d.enableVlan then fillTable chip d table else table
    defTag := fun i =>
      if chip.enabledPorts.getLsbD i then (if d.enableVlan then (d.pvid i).toNat else 1)
      else d.defTag i }

/-- the core refuses a VLAN that the switch does not have -/
inductive Op (chip : Chip) where
  | setPorts (portVlan : Fin chip.vlans) (ports : List (Nat × Bool))
  | apply

def step (chip : Chip) (d : Dev) : Op chip → Dev
  | .setPorts v ports => (vlanSetPorts chip d v ports).1
  | .apply => apply chip d

def run (chip : Chip) (d : Dev) (ops : List (Op chip)) : Dev := ops.foldl (step chip) d

/-- the device after `b53_switch_init`, with VLANs enabled: the hardware has any table -/
def start (table defTag : Nat → Nat) (allowVid4095 : Bool) : Dev :=
  ⟨fun _ => ⟨0, 0⟩, fun _ => 0, true, allowVid4095, table, defTag⟩

/-- the entry of the hardware is the configured one -/
def Follows (chip : Chip) (d : Dev) (v : Nat) : Prop :=
  if (d.vlans v).members = 0 then hwMembers chip (d.table v) = 0
  else hwMembers chip (d.table v) = (d.vlans v).members.toNat ∧
    hwUntag chip (d.table v) = (d.vlans v).untag.toNat

/-! ## what an entry holds -/

theorem or_mod {a b p : Nat} (h : a < 2 ^ p) : (b <<< p ||| a) % 2 ^ p = a := by
  rw [← Nat.shiftLeft_add_eq_or_of_lt h, Nat.shiftLeft_eq, Nat.mul_add_mod_self_right,
    Nat.mod_eq_of_lt h]

theorem or_shift {a b p : Nat} (h : a < 2 ^ p) : (b <<< p ||| a) >>> p = b := by
  rw [← Nat.shiftLeft_add_eq_or_of_lt h, Nat.shiftLeft_eq, Nat.shiftRight_eq_div_pow, Nat.add_comm,
    Nat.add_mul_div_right _ _ (Nat.two_pow_pos p), Nat.div_eq_of_lt h, Nat.zero_add]

/-- the untag bits that the register has room for -/
def untagBits (chip : Chip) : Nat :=
  match chip.family with
  | .bcm5325 => 6
  | .bcm5365 => 5
  | .vta => 9

theorem entry_zero (chip : Chip) (vid : Nat) : hwMembers chip (entry chip vid 0 0) = 0 := by
  have h0 : entry chip vid 0 0 = 0 := by
    unfold entry
    split <;> rfl
  rw [h0]
  unfold hwMembers
  split
  · exact Nat.zero_mod _
  · rfl

/-- two fields of `m` and `n` bits, and what is above them -/
theorem fields_or (top u members n m : Nat) :
    u <<< m ||| members ||| top <<< (n + m) = (top <<< n ||| u) <<< m ||| members := by
  rw [Nat.shiftLeft_or_distrib, ← Nat.shiftLeft_add]
  ac_rfl

theorem testBit_fields {top u members n m : Nat} (hu : u < 2 ^ n) (hm : members < 2 ^ m) (k : Nat) :
    ((top <<< n ||| u) <<< m ||| members).testBit (m + (n + k)) = top.testBit k := by
  rw [← Nat.testBit_shiftRight, or_shift hm, ← Nat.testBit_shiftRight, or_shift hu]

theorem entry_holds (chip : Chip) (vid : Nat) {members untag : Nat} (h0 : members ≠ 0)
    (hm : members < 2 ^ (if chip.family = .vta then 9 else 6)) (hu : untag < 2 ^ 9) :
    hwMembers chip (entry chip vid members untag) = members ∧
    hwUntag chip (entry chip vid members untag) = untag % 2 ^ untagBits chip := by
  unfold hwMembers hwUntag isValid entry untagBits
  cases hf : chip.family with
  | bcm5325 =>
    rw [hf] at hm
    have hm : members < 2 ^ 6 := hm
    have hlt : untag % 2 ^ 6 < 2 ^ 6 := Nat.mod_lt _ (Nat.two_pow_pos 6)
    -- the bits above the two fields
    obtain ⟨top, htop, hbit⟩ : ∃ top, (if chip.coreRev ≥ 3 then 2 ^ 24 ||| vid <<< 12 else 2 ^ 20)
        = top <<< (6 + 6) ∧ top.testBit (if chip.coreRev ≥ 3 then 12 else 8) = true := by
      by_cases hr : chip.coreRev ≥ 3
      · rw [if_pos hr, if_pos hr]
        refine ⟨2 ^ 12 ||| vid, ?_, ?_⟩
        · rw [Nat.shiftLeft_or_distrib, show (2 ^ 12 : Nat) <<< (6 + 6) = 2 ^ 24 from rfl]
        · rw [Nat.testBit_or, Nat.testBit_two_pow_self, Bool.true_or]
      · rw [if_neg hr, if_neg hr]
        refine ⟨2 ^ 8, ?_, Nat.testBit_two_pow_self⟩
        rw [show (2 ^ 8 : Nat) <<< (6 + 6) = 2 ^ 20 from rfl]
    have hvalid : ((top <<< 6 ||| untag % 2 ^ 6) <<< 6 ||| members).testBit
        (if chip.coreRev ≥ 3 then 24 else 20) = true := by
      have hk : (if chip.coreRev ≥ 3 then 24 else 20) = 6 + (6 + if chip.coreRev ≥ 3 then 12 else 8) := by
        split <;> rfl
      rw [hk, testBit_fields hlt hm, hbit]
    dsimp only
    rw [if_neg h0, htop, show (0x3f : Nat) = 2 ^ 6 - 1 from rfl, Nat.and_two_pow_sub_one_eq_mod, fields_or,
      hvalid, if_pos rfl, if_neg (by decide), or_mod hm, or_shift hm, or_mod hlt]
    exact ⟨rfl, rfl⟩
  | bcm5365 =>
    rw [hf] at hm
    have hm : members < 2 ^ 6 := hm
    have hm7 : members < 2 ^ 7 := Nat.lt_trans hm (by decide)
    have hlt : untag % 2 ^ 5 < 2 ^ 5 := Nat.mod_lt _ (Nat.two_pow_pos 5)
    have hvalid : ((2 ^ 2 <<< 5 ||| untag % 2 ^ 5) <<< 7 ||| members).testBit 14 = true :=
      testBit_fields hlt hm7 2
    have hmod : ((2 ^ 2 <<< 5 ||| untag % 2 ^ 5) <<< 7 ||| members) % 2 ^ 6 = members := by
      rw [← Nat.mod_mod_of_dvd _ (show 2 ^ 6 ∣ 2 ^ 7 by decide), or_mod hm7, Nat.mod_eq_of_lt hm]
    dsimp only
    rw [if_neg h0, show (0x1f : Nat) = 2 ^ 5 - 1 from rfl, Nat.and_two_pow_sub_one_eq_mod,
      show (2 ^ 14 : Nat) = 2 ^ 2 <<< (5 + 7) from rfl, fields_or, hvalid, if_pos rfl,
      if_neg (by decide), hmod, or_shift hm7, or_mod hlt]
    exact ⟨rfl, rfl⟩
  | vta =>
    rw [hf] at hm
    have hm : members < 2 ^ 9 := hm
    show (untag <<< 9 ||| members) % 2 ^ 9 = members ∧
      ((untag <<< 9 ||| members) >>> 9) % 2 ^ 9 = untag % 2 ^ 9
    rw [or_mod hm, or_shift hm]
    exact ⟨rfl, rfl⟩

/-! ## the loops -/

/-- a loop that writes one entry in a turn, or none -/
theorem foldl_entries {α : Type} (write : Nat → Bool) (f : Nat → α) (l : List Nat) (t : Nat → α)
    (v : Nat) : (l.foldl (fun t i => if write i then Function.update t i (f i) else t) t) v
      = if v ∈ l ∧ write v = true then f v else t v := by
  induction l generalizing t with
  | nil => rw [if_neg fun h => absurd h.1 List.not_mem_nil]; rfl
  | cons i l ih =>
    rw [List.foldl_cons, ih]
    by_cases hl : v ∈ l ∧ write v = true
    · rw [if_pos hl, if_pos ⟨List.mem_cons_of_mem _ hl.1, hl.2⟩]
    · rw [if_neg hl]
      by_cases hi : v = i ∧ write i = true
      · obtain ⟨rfl, hw⟩ := hi
        rw [if_pos hw, Function.update_self, if_pos ⟨List.mem_cons_self, hw⟩]
      · have hv : ¬ (v ∈ i :: l ∧ write v = true) := by
          rintro ⟨hmem, hw⟩
          rcases List.mem_cons.mp hmem with rfl | hmem
          · exact hi ⟨rfl, hw⟩
          · exact hl ⟨hmem, hw⟩
        rw [if_neg hv]
        by_cases hw : write i = true
        · rw [if_pos hw, Function.update_of_ne fun e => hi ⟨e, hw⟩]
        · rw [if_neg hw]

theorem clearTable_at (chip : Chip) (table : Nat → Nat) {v : Nat} (hv : v < chip.vlans) :
    clearTable chip table v
      = if chip.family = .vta then 0
        else if v = 0 then table 0 else entry chip v 0 0 := by
  unfold clearTable
  split
  · rfl
  · have hf := foldl_entries (fun _ => true) (fun i => entry chip i 0 0)
      (List.range' 1 (chip.vlans - 1)) table v
    refine hf.trans ?_
    by_cases h0 : v = 0
    · subst h0
      rw [if_neg fun h => absurd (List.mem_range'_1.mp h.1).1 (by decide), if_pos rfl]
    · rw [if_neg h0, if_pos ⟨List.mem_range'_1.mpr ⟨Nat.pos_of_ne_zero h0, by omega⟩, rfl⟩]

theorem fillTable_at (chip : Chip) (d : Dev) (table : Nat → Nat) {v : Nat} (hv : v < chip.vlans) :
    fillTable chip d table v
      = if (d.vlans v).members = 0 then table v
        else entry chip v (d.vlans v).members.toNat (d.vlans v).untag.toNat := by
  have hf := foldl_entries (fun i => decide ((d.vlans i).members ≠ 0))
    (fun i => entry chip i (d.vlans i).members.toNat (d.vlans i).untag.toNat)
    (List.range chip.vlans) table v
  have he : fillTable chip d table = (List.range chip.vlans).foldl (fun t i =>
      if decide ((d.vlans i).members ≠ 0) = true then Function.update t i
        (entry chip i (d.vlans i).members.toNat (d.vlans i).untag.toNat) else t) table := by
    unfold fillTable setVlanEntry
    congr 1
    funext t i
    by_cases h : (d.vlans i).members = 0
    · rw [if_pos h, if_neg (by simpa using h)]
    · rw [if_neg h, if_pos (by simpa using h)]
  rw [he, hf]
  by_cases h : (d.vlans v).members = 0
  · rw [if_pos h, if_neg fun hd => absurd hd.2 (by simpa using h)]
  · rw [if_neg h, if_pos ⟨List.mem_range.mpr hv, by simpa using h⟩]

/-- an entry after an apply -/
theorem apply_at (chip : Chip) {d : Dev} (hd : d.enableVlan = true) {v : Nat} (hv : v < chip.vlans) :
    (apply chip d).table v
      = if (d.vlans v).members ≠ 0 then
          entry chip v (d.vlans v).members.toNat (d.vlans v).untag.toNat
        else if chip.family = .vta then 0
        else if v = 0 then d.table 0 else entry chip v 0 0 := by
  show (if d.enableVlan then fillTable chip d (clearTable chip d.table)
    else clearTable chip d.table) v = _
  rw [if_pos hd, fillTable_at chip d _ hv, clearTable_at chip _ hv]
  by_cases h : (d.vlans v).members = 0
  · rw [if_pos h, if_neg (not_not.mpr h)]
  · rw [if_neg h, if_pos h]

/-! ## an apply -/

/-- VLANs are enabled, and configured for the ports that the chip has -/
structure Configured (chip : Chip) (d : Dev) : Prop where
  enabled : d.enableVlan = true
  ports : chip.family ≠ .vta → ∀ v, (d.vlans v).members.toNat < 2 ^ 6 ∧ (d.vlans v).untag.toNat < 2 ^ 6

theorem members_ne {m : BitVec 9} (h : m ≠ 0) : m.toNat ≠ 0 := fun h0 => h (BitVec.eq_of_toNat_eq h0)

section
variable {chip : Chip} {d : Dev}

theorem Configured.entry (hc : Configured chip d) {v : Nat} (h : (d.vlans v).members ≠ 0) :
    hwMembers chip (entry chip v (d.vlans v).members.toNat (d.vlans v).untag.toNat)
      = (d.vlans v).members.toNat ∧
    hwUntag chip (entry chip v (d.vlans v).members.toNat (d.vlans v).untag.toNat)
      = (d.vlans v).untag.toNat % 2 ^ untagBits chip := by
  refine entry_holds chip v (members_ne h) ?_ (BitVec.isLt _)
  split
  · exact BitVec.isLt _
  · next hf => exact (hc.ports hf v).1

/-- the untag mask fits, except that the BCM5365 has no bit for the CPU port -/
theorem Configured.untag_iff (hc : Configured chip d) (v : Nat) :
    (d.vlans v).untag.toNat % 2 ^ untagBits chip = (d.vlans v).untag.toNat ↔
      (chip.family = .bcm5365 → (d.vlans v).untag.getLsbD 5 = false) := by
  have hlt := (d.vlans v).untag.isLt
  have hp := fun h => (hc.ports h v).2
  unfold untagBits
  cases hf : chip.family with
  | bcm5325 => exact iff_of_true (Nat.mod_eq_of_lt (hp (by rw [hf]; decide))) nofun
  | bcm5365 =>
    have hp := hp (by rw [hf]; decide)
    rw [forall_prop_of_true rfl]
    unfold BitVec.getLsbD
    rw [Nat.testBit_eq_decide_div_mod_eq, decide_eq_false_iff_not]
    show (d.vlans v).untag.toNat % 32 = _ ↔ _
    omega
  | vta => exact iff_of_true (Nat.mod_eq_of_lt hlt) nofun

/-- an entry follows the configuration after an apply -/
theorem apply_follows (hc : Configured chip d) {v : Nat} (hv : v < chip.vlans) :
    Follows chip (apply chip d) v ↔
      if (d.vlans v).members = 0 then chip.family ≠ .vta → v = 0 → hwMembers chip (d.table 0) = 0
      else chip.family = .bcm5365 → (d.vlans v).untag.getLsbD 5 = false := by
  unfold Follows
  show (if (d.vlans v).members = 0 then _ else _) ↔ _
  rw [apply_at chip hc.enabled hv]
  by_cases h : (d.vlans v).members = 0
  · rw [if_pos h, if_pos h, if_neg (not_not.mpr h)]
    by_cases hf : chip.family = .vta
    · rw [if_pos hf]
      refine iff_of_true ?_ fun hne => absurd hf hne
      unfold hwMembers
      split
      · exact Nat.zero_mod _
      · rfl
    · rw [if_neg hf, forall_prop_of_true hf]
      by_cases h0 : v = 0
      · rw [if_pos h0, forall_prop_of_true h0]
      · rw [if_neg h0]
        exact iff_of_true (entry_zero chip v) fun h => absurd h h0
  · rw [if_neg h, if_neg h, if_pos h, (hc.entry h).1, (hc.entry h).2, ← hc.untag_iff v]
    exact and_iff_right rfl

end

/-! ## runs -/

section
variable {chip : Chip} {d : Dev}

theorem and_enabled_lt (chip : Chip) (hf : chip.family ≠ .vta) (m : BitVec 9) :
    (m &&& chip.enabledPorts).toNat < 2 ^ 6 := by
  rw [BitVec.toNat_and]
  exact Nat.lt_of_le_of_lt Nat.and_le_right (chip.ports_lt hf)

theorem vlanSetPorts_table (chip : Chip) (d : Dev) (v : Nat) (ports : List (Nat × Bool)) :
    (vlanSetPorts chip d v ports).1.table = d.table := by
  unfold vlanSetPorts
  split
  · rfl
  split <;> rfl

theorem Configured.setPorts (hc : Configured chip d) (v : Nat) (ports : List (Nat × Bool)) :
    Configured chip (vlanSetPorts chip d v ports).1 := by
  unfold vlanSetPorts
  split
  · exact hc
  split
  · exact hc
  · refine ⟨hc.enabled, fun hf w => ?_⟩
    by_cases hw : w = v
    · subst hw
      show (Function.update d.vlans w _ w).members.toNat < _ ∧ (Function.update d.vlans w _ w).untag.toNat < _
      rw [Function.update_self]
      exact ⟨and_enabled_lt chip hf _, and_enabled_lt chip hf _⟩
    · show (Function.update d.vlans v _ w).members.toNat < _ ∧ (Function.update d.vlans v _ w).untag.toNat < _
      rw [Function.update_of_ne hw]
      exact hc.ports hf w

theorem Configured.step (hc : Configured chip d) (op : Op chip) : Configured chip (step chip d op) := by
  cases op with
  | setPorts v ports => exact hc.setPorts v ports
  | apply => exact ⟨hc.enabled, hc.ports⟩

theorem Configured.run (hc : Configured chip d) (ops : List (Op chip)) :
    Configured chip (run chip d ops) := by
  induction ops generalizing d with
  | nil => exact hc
  | cons op ops ih => exact ih (hc.step op)

/-- no apply of the run finds members in VLAN 0 -/
def Idle (chip : Chip) : Dev → List (Op chip) → Prop
  | _, [] => True
  | d, .setPorts v ports :: ops => Idle chip (step chip d (.setPorts v ports)) ops
  | d, .apply :: ops => (d.vlans 0).members = 0 ∧ Idle chip (step chip d .apply) ops

/-- the entry of VLAN 0 is empty as long as nothing was written there -/
theorem run_table_zero (hc : Configured chip d) (hf : chip.family ≠ .vta) (ops : List (Op chip)) :
    hwMembers chip ((run chip d ops).table 0) = 0 ↔
      hwMembers chip (d.table 0) = 0 ∧ Idle chip d ops := by
  induction ops generalizing d with
  | nil => exact (and_iff_left trivial).symm
  | cons op ops ih =>
    refine (ih (hc.step op)).trans ?_
    cases op with
    | setPorts v ports =>
      show hwMembers chip ((vlanSetPorts chip d v ports).1.table 0) = 0 ∧ _ ↔ _
      rw [vlanSetPorts_table]
      exact Iff.rfl
    | apply =>
      show hwMembers chip ((apply chip d).table 0) = 0 ∧ _ ↔
        _ ∧ (d.vlans 0).members = 0 ∧ Idle chip (apply chip d) ops
      rw [apply_at chip hc.enabled chip.vlans_pos]
      by_cases h : (d.vlans 0).members = 0
      · rw [if_neg (not_not.mpr h), if_neg hf, if_pos rfl, and_iff_right h]
        exact Iff.rfl
      · rw [if_pos h, (hc.entry h).1]
        exact iff_of_false (fun hm => members_ne h hm.1) fun hm => h hm.2.1

end

/-- the configuration is one that an apply writes -/
def Kept (chip : Chip) (table : Nat → Nat) (d d' : Dev) (ops : List (Op chip)) : Prop :=
  (chip.family ≠ .vta → (d'.vlans 0).members ≠ 0 ∨ hwMembers chip (table 0) = 0 ∧ Idle chip d ops) ∧
  (chip.family = .bcm5365 → ∀ v < chip.vlans, (d'.vlans v).members ≠ 0 →
    (d'.vlans v).untag.getLsbD 5 = false)

/-- **The table of the hardware follows the configuration** after a run that ends in an apply, exactly
if VLAN 0 of a BCM5325 or BCM5365 has members or never had, and the CPU port of a BCM5365 is tagged. -/
theorem run_follows_iff (chip : Chip) (table defTag : Nat → Nat) (allow : Bool) (ops : List (Op chip)) :
    (∀ v < chip.vlans, Follows chip (run chip (start table defTag allow) (ops ++ [.apply])) v) ↔
      Kept chip table (start table defTag allow) (run chip (start table defTag allow) ops) ops := by
  have h0 : (0 : BitVec 9).toNat < 2 ^ 6 := by decide
  have hstart : Configured chip (start table defTag allow) := ⟨rfl, fun _ _ => ⟨h0, h0⟩⟩
  have hc := hstart.run ops
  have hrun : run chip (start table defTag allow) (ops ++ [.apply])
      = apply chip (run chip (start table defTag allow) ops) := by
    unfold run
    rw [List.foldl_append]
    rfl
  have hzero := fun hf => run_table_zero hstart hf ops
  rw [hrun]
  unfold Kept
  generalize run chip (start table defTag allow) ops = d at hc hzero ⊢
  constructor
  · intro h
    refine ⟨fun hf => ?_, fun hf v hv hm => ?_⟩
    · by_cases h0 : (d.vlans 0).members = 0
      · have h0' := (apply_follows hc chip.vlans_pos).mp (h 0 chip.vlans_pos)
        rw [if_pos h0] at h0'
        exact .inr ((hzero hf).mp (h0' hf rfl))
      · exact .inl h0
    · have hv' := (apply_follows hc hv).mp (h v hv)
      rw [if_neg hm] at hv'
      exact hv' hf
  · rintro ⟨h0, hcpu⟩ v hv
    rw [apply_follows hc hv]
    split
    · next hm =>
      intro hf hv0
      subst hv0
      exact (hzero hf).mpr ((h0 hf).resolve_left (not_not.mpr hm))
    · next hm => exact fun hf => hcpu hf v hv hm

/-- a BCM5325E -/
def bcm5325 : Chip := ⟨.bcm5325, 4, 0x3f, fun _ => by decide⟩

/-- two ports in VLAN 0, an apply, no ports, an apply: the two ports are still in the table -/
theorem vlan0_stale :
    hwMembers bcm5325 ((run bcm5325 (start (fun _ => 0) (fun _ => 0) false)
      ([.setPorts ⟨0, by decide⟩ [(0, false), (1, false)], .apply, .setPorts ⟨0, by decide⟩ []]
        ++ [.apply])).table 0) = 3 ∧
    ¬ ∀ v < bcm5325.vlans, Follows bcm5325 (run bcm5325 (start (fun _ => 0) (fun _ => 0) false)
      ([.setPorts ⟨0, by decide⟩ [(0, false), (1, false)], .apply, .setPorts ⟨0, by decide⟩ []]
        ++ [.apply])) v := by
  have h3 : hwMembers bcm5325 ((run bcm5325 (start (fun _ => 0) (fun _ => 0) false)
      ([.setPorts ⟨0, by decide⟩ [(0, false), (1, false)], .apply, .setPorts ⟨0, by decide⟩ []]
        ++ [.apply])).table 0) = 3 := by decide +kernel
  refine ⟨h3, fun h => ?_⟩
  have h0 := h 0 (by decide)
  unfold Follows at h0
  rw [if_pos (by decide +kernel), h3] at h0
  cases h0

end B53
