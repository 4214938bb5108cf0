import Mathlib.Data.List.Nodup
import Firmware.Lib.Bytes
import Firmware.Lib.Decimal

/-!
# swconfig: the list of the switches

`register_switch` and `unregister_switch`, with the LED trigger of a switch.

* `registerSwitch`, `unregisterSwitch`   the model;
* `Enters`            when a registration puts the switch into the list;
* `Consistent`        ids and names differ, and a name is `switch` with a small number;
* `Keeps`             a failing registration leaves the list alone;
* `keeps_iff`         when that is so;
* `run_iff`           both, over a run.
-/

set_option linter.unusedVariables false

namespace Swconfig
open CStr CInt

/-- the width of `unsigned long` -/
inductive Abi where
  | ilp32
  | lp64
deriving DecidableEq

/-- `max_switches` -/
def Abi.longBits : Abi → Nat
  | .ilp32 => 32
  | .lp64 => 64

/-- `struct switch_portmap` -/
structure Portmap where
  virt : UInt32
  s : Option CStr
deriving DecidableEq

/-- `struct switch_dev`: what a driver fills in -/
structure Switch where
  name : CStr
  netAlias : CStr
  ports : Nat
  vlans : Nat
  cpuPort : Nat
  /-- there is `ops->get_port_link` -/
  portLink : Bool
deriving DecidableEq

/-- `struct switch_dev` in the list -/
structure SwitchDev extends Switch where
  id : Nat
  devname : CStr
  portmap : List Portmap
  portmap_length : portmap.length = ports
deriving DecidableEq

/-- `swdev_id` and `swdevs` -/
structure Swdevs where
  id : Nat
  devs : List SwitchDev

/-- what else decides a registration: the three allocations, the port map of the device tree and
what `led_trigger_register` returns -/
structure World where
  portbuf : Bool
  portmap : Bool
  trigger : Bool
  led : Int
  load : Nat → Portmap

def intMax : Nat := 2147483647
def eNomem : Int := -12
def eNfile : Int := -23

/-! ## names -/

/-- `SWCONFIG_DEVNAME` before the number -/
def switchText : List UInt8 := ascii ['s', 'w', 'i', 't', 'c', 'h']

def ifnamsiz : Nat := 16

theorem devname_nul_free (i : Nat) : 0 ∉ (switchText ++ Scanf.decimal i).take (ifnamsiz - 1) := by
  intro h
  rcases List.mem_append.mp (List.mem_of_mem_take h) with h | h
  · exact absurd h (by decide)
  · exact absurd (Scanf.isdigit_decimal h) (by decide)

/-- `snprintf(dev->devname, IFNAMSIZ, "switch%d", i)` -/
def devname (i : Nat) : CStr := ⟨(switchText ++ Scanf.decimal i).take (ifnamsiz - 1), devname_nul_free i⟩

/-- `%d` of the kernel's `sscanf`: no plus sign -/
def scanInt (l : List UInt8) : Option Int :=
  match Scanf.blank l with
  | 45 :: l => if l.head?.any Scanf.isdigit then some (wrap (-(digits 10 0 l : Int))) else none
  | l => if l.head?.any Scanf.isdigit then some (wrap (digits 10 0 l)) else none

/-- `sscanf(name, "switch%d", &i)` -/
def scanDevname (name : CStr) : Option Int := (Scanf.lit switchText name.bytes).bind scanInt

/-! ## registration -/

/-- one turn of the loop over the devices; `max_switches` itself sets a bit behind the word -/
def setBit (abi : Abi) (inUse : Nat) (sdev : SwitchDev) : Nat :=
  match scanDevname sdev.devname with
  | some i => if i < 0 ∨ i > abi.longBits then inUse else inUse ||| 1 <<< i.toNat
  | none => inUse

def namesInUse (abi : Abi) (devs : List SwitchDev) : Nat := devs.foldl (setBit abi) 0

def findFirstZeroBit (inUse size : Nat) : Nat :=
  ((List.range size).find? fun i => !inUse.testBit i).getD size

def createLedTrigger (dev : Switch) (w : World) : Int :=
  if !dev.portLink then 0 else if !w.trigger then eNomem else w.led

/-- the device as it goes into the list -/
def fillIn (dev : Switch) (w : World) (id i : Nat) : SwitchDev where
  toSwitch := dev
  id := id
  devname := devname i
  portmap := (List.range dev.ports).map w.load
  portmap_length := by rw [List.length_map, List.length_range]

def registerSwitch (abi : Abi) (s : Swdevs) (dev : Switch) (w : World) : Swdevs × Int :=
  if s.id = intMax then (s, eNomem)
  else if dev.ports > 0 ∧ w.portbuf = false then (s, eNomem)
  else if dev.ports > 0 ∧ w.portmap = false then (s, eNomem)
  else
    let i := findFirstZeroBit (namesInUse abi s.devs) abi.longBits
    if i = abi.longBits then (⟨s.id + 1, s.devs⟩, eNfile)
    else (⟨s.id + 1, s.devs ++ [fillIn dev w (s.id + 1) i]⟩, createLedTrigger dev w)

/-- the device at the place `k` of the list goes -/
def unregisterSwitch (s : Swdevs) (k : Nat) : Swdevs := { s with devs := s.devs.eraseIdx k }

/-- a call -/
inductive Call where
  | register (dev : Switch) (w : World)
  | unregister (k : Nat)

def step (abi : Abi) (s : Swdevs) : Call → Swdevs
  | .register dev w => (registerSwitch abi s dev w).1
  | .unregister k => unregisterSwitch s k

def run (abi : Abi) (s : Swdevs) (calls : List Call) : Swdevs := calls.foldl (step abi) s

/-- `swconfig_init` -/
def init : Swdevs := ⟨0, []⟩

/-! ## the names in use -/

/-- a name is read back -/
theorem scanDevname_devname : ∀ i, i < 65 → scanDevname (devname i) = some (i : Int) := by decide

theorem devname_inj {i j : Nat} (hi : i < 65) (hj : j < 65) (h : devname i = devname j) : i = j := by
  have hs := scanDevname_devname i hi
  rw [h, scanDevname_devname j hj] at hs
  exact (Int.ofNat.inj (Option.some.inj hs)).symm

theorem longBits_le (abi : Abi) : abi.longBits ≤ 64 := by
  cases abi <;> decide

/-- the names are those that the code gives -/
def Named (abi : Abi) (devs : List SwitchDev) : Prop :=
  ∀ d ∈ devs, ∃ n, n < abi.longBits ∧ d.devname = devname n

theorem testBit_setBit {abi : Abi} {d : SwitchDev} {n : Nat} (hn : n < abi.longBits)
    (hd : d.devname = devname n) (m i : Nat) :
    (setBit abi m d).testBit i = (m.testBit i || decide (n = i)) := by
  have hb := longBits_le abi
  unfold setBit
  rw [hd, scanDevname_devname n (by omega)]
  dsimp only
  rw [if_neg (by omega), Nat.testBit_or, Int.toNat_natCast, Nat.shiftLeft_eq, Nat.one_mul,
    Nat.testBit_two_pow]

theorem testBit_foldl {abi : Abi} {devs : List SwitchDev} (h : Named abi devs) {i : Nat}
    (hi : i < abi.longBits) : ∀ m : Nat, (devs.foldl (setBit abi) m).testBit i = true ↔
      m.testBit i = true ∨ ∃ d ∈ devs, d.devname = devname i := by
  have hb := longBits_le abi
  induction devs with
  | nil =>
    intro m
    exact (or_iff_left fun ⟨_, h, _⟩ => absurd h List.not_mem_nil).symm
  | cons d devs ih =>
    intro m
    obtain ⟨n, hn, hd⟩ := h d List.mem_cons_self
    have hname : d.devname = devname i ↔ n = i := by
      constructor
      · intro e
        exact devname_inj (by omega) (by omega) (hd.symm.trans e)
      · intro e
        rw [hd, e]
    rw [List.foldl_cons, ih fun e he => h e (List.mem_cons_of_mem _ he), testBit_setBit hn hd,
      Bool.or_eq_true, decide_eq_true_iff, or_assoc, List.exists_mem_cons_iff, hname]

/-- the mask has the numbers of the names -/
theorem testBit_namesInUse {abi : Abi} {devs : List SwitchDev} (h : Named abi devs) {i : Nat}
    (hi : i < abi.longBits) :
    (namesInUse abi devs).testBit i = true ↔ ∃ d ∈ devs, d.devname = devname i := by
  unfold namesInUse
  rw [testBit_foldl h hi, Nat.zero_testBit]
  exact or_iff_right Bool.false_ne_true

theorem findFirstZeroBit_cases (m size : Nat) :
    (findFirstZeroBit m size = size ∧ ∀ i, i < size → m.testBit i = true) ∨
    (findFirstZeroBit m size < size ∧ m.testBit (findFirstZeroBit m size) = false) := by
  unfold findFirstZeroBit
  cases hf : (List.range size).find? fun i => !m.testBit i with
  | none =>
    refine .inl ⟨rfl, fun i hi => ?_⟩
    have h := List.find?_eq_none.mp hf i (List.mem_range.mpr hi)
    simpa using h
  | some i =>
    refine .inr ⟨List.mem_range.mp (List.mem_of_find?_eq_some hf), ?_⟩
    have h := List.find?_some hf
    simpa using h

/-! ## one registration -/

/-- the steps before the list is changed go well -/
structure Enters (abi : Abi) (s : Swdevs) (dev : Switch) (w : World) : Prop where
  id : s.id ≠ intMax
  alloc : dev.ports > 0 → w.portbuf = true ∧ w.portmap = true
  free : ∃ n, n < abi.longBits ∧ ∀ d ∈ s.devs, d.devname ≠ devname n

/-- the LED trigger is wanted, and cannot be made -/
def LedFails (dev : Switch) (w : World) : Prop :=
  dev.portLink = true ∧ (w.trigger = false ∨ w.led ≠ 0)

theorem createLedTrigger_iff (dev : Switch) (w : World) :
    createLedTrigger dev w ≠ 0 ↔ LedFails dev w := by
  unfold createLedTrigger LedFails
  cases dev.portLink with
  | false => simp
  | true =>
    cases w.trigger with
    | false => simp [eNomem]
    | true => simp

/-- **What a registration does**: an error before the list is changed, or a device with a new name
at the end of the list. -/
theorem registerSwitch_cases {abi : Abi} {s : Swdevs} (h : Named abi s.devs) (dev : Switch)
    (w : World) :
    (¬ Enters abi s dev w ∧ (registerSwitch abi s dev w).1.devs = s.devs ∧
      s.id ≤ (registerSwitch abi s dev w).1.id ∧ (registerSwitch abi s dev w).2 ≠ 0) ∨
    (Enters abi s dev w ∧ ∃ i, i < abi.longBits ∧ (∀ d ∈ s.devs, d.devname ≠ devname i) ∧
      registerSwitch abi s dev w
        = (⟨s.id + 1, s.devs ++ [fillIn dev w (s.id + 1) i]⟩, createLedTrigger dev w)) := by
  unfold registerSwitch
  by_cases hid : s.id = intMax
  · rw [if_pos hid]
    exact .inl ⟨fun e => e.id hid, rfl, le_refl _, show eNomem ≠ 0 by decide⟩
  rw [if_neg hid]
  by_cases hb : dev.ports > 0 ∧ w.portbuf = false
  · rw [if_pos hb]
    refine .inl ⟨fun e => ?_, rfl, le_refl _, show eNomem ≠ 0 by decide⟩
    rw [(e.alloc hb.1).1] at hb
    exact absurd hb.2 (by decide)
  rw [if_neg hb]
  by_cases hm : dev.ports > 0 ∧ w.portmap = false
  · rw [if_pos hm]
    refine .inl ⟨fun e => ?_, rfl, le_refl _, show eNomem ≠ 0 by decide⟩
    rw [(e.alloc hm.1).2] at hm
    exact absurd hm.2 (by decide)
  rw [if_neg hm]
  dsimp only
  obtain ⟨hi, hall⟩ | ⟨hi, hz⟩ := findFirstZeroBit_cases (namesInUse abi s.devs) abi.longBits
  · rw [if_pos hi]
    refine .inl ⟨fun e => ?_, rfl, Nat.le_succ _, show eNfile ≠ 0 by decide⟩
    obtain ⟨n, hn, hfree⟩ := e.free
    obtain ⟨d, hd, hname⟩ := (testBit_namesInUse h hn).mp (hall n hn)
    exact hfree d hd hname
  · rw [if_neg (by omega)]
    have hfree : ∀ d ∈ s.devs, d.devname ≠ devname (findFirstZeroBit (namesInUse abi s.devs) abi.longBits) := by
      intro d hd hname
      rw [(testBit_namesInUse h hi).mpr ⟨d, hd, hname⟩] at hz
      exact absurd hz (by decide)
    refine .inr ⟨⟨hid, fun hp => ?_, _, hi, hfree⟩, _, hi, hfree, rfl⟩
    constructor
    · cases hw : w.portbuf with
      | true => rfl
      | false => exact absurd ⟨hp, hw⟩ hb
    · cases hw : w.portmap with
      | true => rfl
      | false => exact absurd ⟨hp, hw⟩ hm

/-! ## the list stays consistent -/

structure Consistent (abi : Abi) (devs : List SwitchDev) : Prop where
  ids : (devs.map (·.id)).Nodup
  names : (devs.map (·.devname)).Nodup
  named : Named abi devs

/-- the ids of the list have been given out -/
structure Inv (abi : Abi) (s : Swdevs) : Prop extends Consistent abi s.devs where
  given : ∀ d ∈ s.devs, d.id ≤ s.id

theorem inv_init (abi : Abi) : Inv abi init :=
  ⟨⟨List.nodup_nil, List.nodup_nil, fun _ h => absurd h List.not_mem_nil⟩,
    fun _ h => absurd h List.not_mem_nil⟩

theorem Inv.concat {abi : Abi} {s : Swdevs} (h : Inv abi s) {d : SwitchDev} {i : Nat}
    (hid : d.id = s.id + 1) (hi : i < abi.longBits) (hd : d.devname = devname i)
    (hfree : ∀ e ∈ s.devs, e.devname ≠ devname i) : Inv abi ⟨s.id + 1, s.devs ++ [d]⟩ := by
  refine ⟨⟨?_, ?_, ?_⟩, ?_⟩
  · show ((s.devs ++ [d]).map (·.id)).Nodup
    rw [List.map_append, List.map_singleton, ← List.concat_eq_append]
    refine (List.nodup_concat _ _).mpr ⟨fun hm => ?_, h.ids⟩
    obtain ⟨e, he, heq⟩ := List.mem_map.mp hm
    have hle := h.given e he
    have hne : e.id = s.id + 1 := heq.trans hid
    omega
  · show ((s.devs ++ [d]).map (·.devname)).Nodup
    rw [List.map_append, List.map_singleton, ← List.concat_eq_append]
    refine (List.nodup_concat _ _).mpr ⟨fun hm => ?_, h.names⟩
    obtain ⟨e, he, heq⟩ := List.mem_map.mp hm
    exact hfree e he (heq.trans hd)
  · intro e he
    rcases List.mem_append.mp he with he | he
    · exact h.named e he
    · exact List.mem_singleton.mp he ▸ ⟨i, hi, hd⟩
  · intro e he
    show e.id ≤ s.id + 1
    rcases List.mem_append.mp he with he | he
    · have hle := h.given e he
      omega
    · rw [List.mem_singleton.mp he, hid]

theorem Inv.sublist {abi : Abi} {s : Swdevs} (h : Inv abi s) {id : Nat} {devs : List SwitchDev}
    (hid : s.id ≤ id) (hd : devs.Sublist s.devs) : Inv abi ⟨id, devs⟩ :=
  ⟨⟨h.ids.sublist (hd.map _), h.names.sublist (hd.map _), fun e he => h.named e (hd.subset he)⟩,
    fun e he => (h.given e (hd.subset he)).trans hid⟩

/-- one call -/
theorem inv_step {abi : Abi} {s : Swdevs} (h : Inv abi s) (c : Call) : Inv abi (step abi s c) := by
  cases c with
  | unregister k => exact h.sublist (le_refl s.id) (List.eraseIdx_sublist s.devs k)
  | register dev w =>
    show Inv abi (registerSwitch abi s dev w).1
    obtain ⟨-, hd, hid, -⟩ | ⟨-, i, hi, hfree, he⟩ := registerSwitch_cases h.named dev w
    · have hs := h.sublist hid (List.Sublist.refl s.devs)
      rw [← hd] at hs
      exact hs
    · rw [he]
      exact h.concat rfl hi rfl hfree

theorem inv_run {abi : Abi} (calls : List Call) : ∀ {s : Swdevs}, Inv abi s → Inv abi (run abi s calls) := by
  induction calls with
  | nil => exact fun h => h
  | cons c calls ih => exact fun h => ih (inv_step h c)

/-! ## a registration that fails -/

/-- the call does not fail, or it leaves the list alone -/
def Keeps (abi : Abi) (s : Swdevs) : Call → Prop
  | .register dev w => (registerSwitch abi s dev w).2 ≠ 0 → (registerSwitch abi s dev w).1.devs = s.devs
  | .unregister _ => True

/-- the LED trigger of a device that is in the list by then cannot be made -/
def LateError (abi : Abi) (s : Swdevs) : Call → Prop
  | .register dev w => Enters abi s dev w ∧ LedFails dev w
  | .unregister _ => False

theorem keeps_iff {abi : Abi} {s : Swdevs} (h : Named abi s.devs) (c : Call) :
    Keeps abi s c ↔ ¬ LateError abi s c := by
  cases c with
  | unregister k => exact iff_of_true trivial fun e => e
  | register dev w =>
    show ((registerSwitch abi s dev w).2 ≠ 0 → _) ↔ ¬ (Enters abi s dev w ∧ LedFails dev w)
    obtain ⟨hn, hd, -, -⟩ | ⟨hy, i, -, -, he⟩ := registerSwitch_cases h dev w
    · exact iff_of_true (fun _ => hd) fun e => hn e.1
    · rw [he, ← createLedTrigger_iff]
      constructor
      · intro hk e
        have hl := congrArg List.length (hk e.2)
        rw [List.length_append, List.length_singleton] at hl
        omega
      · intro hk hne
        exact absurd ⟨hy, hne⟩ hk

/-- **The device list stays consistent, and a failing registration leaves it alone**, exactly in the
runs in which no LED trigger fails for a device that is in the list. -/
theorem run_iff (abi : Abi) (calls : List Call) :
    ((∀ k, Consistent abi (run abi init (calls.take k)).devs) ∧
      ∀ k c, calls[k]? = some c → Keeps abi (run abi init (calls.take k)) c) ↔
    ∀ k c, calls[k]? = some c → ¬ LateError abi (run abi init (calls.take k)) c := by
  have hinv : ∀ k, Inv abi (run abi init (calls.take k)) :=
    fun k => inv_run (calls.take k) (inv_init abi)
  constructor
  · rintro ⟨-, h⟩ k c hc
    exact (keeps_iff (hinv k).named c).mp (h k c hc)
  · intro h
    exact ⟨fun k => (hinv k).toConsistent,
      fun k c hc => (keeps_iff (hinv k).named c).mpr (h k c hc)⟩

/-- a switch with link states, so it gets a LED trigger -/
def ledSwitch : Switch :=
  ⟨devname 0, devname 1, 2, 16, 0, true⟩

/-- no memory is left for the trigger -/
def noTrigger : World := ⟨true, true, false, 0, fun _ => ⟨0, none⟩⟩

/-- the registration fails, and the list has the device -/
theorem failed_listed : (registerSwitch .lp64 init ledSwitch noTrigger).2 = eNomem ∧
    (registerSwitch .lp64 init ledSwitch noTrigger).1.devs.map (·.devname) = [devname 0] ∧
    ¬ Keeps .lp64 init (.register ledSwitch noTrigger) := by
  have h1 : (registerSwitch .lp64 init ledSwitch noTrigger).2 = eNomem := by decide
  have h2 : (registerSwitch .lp64 init ledSwitch noTrigger).1.devs.map (·.devname) = [devname 0] := by
    decide
  refine ⟨h1, h2, fun h => ?_⟩
  have h0 := h (by rw [h1]; decide)
  rw [h0] at h2
  exact absurd h2 (by decide)

end Swconfig
