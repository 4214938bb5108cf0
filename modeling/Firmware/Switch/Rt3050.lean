import Mathlib.Data.List.FinRange
import Firmware.Lib.Fields

/-!
# esw_rt3050

The switch driver `esw_rt3050.c`. The driver keeps the configuration in memory, 16 slots for the
VLANs and 7 ports; `applyConfig` writes it to the registers. The VLANs are read back from the
registers.

The registers keep what is written to them. Those that the hardware writes itself are `PCR1`, of
which only the outcome of the waiting loops is left (`ready`), and `POC0`, after the reset.

* `setVlanPorts`, `getVlanPorts`   the slots are found by search;
* `applyConfig`, `hwInit`          the writes to the registers;
* `Op`, `step`, `run`              the calls from swconfig.
-/

set_option linter.unusedVariables false

namespace Rt3050

def eInval : Int := -22

def numVlans : Nat := 16
def numVids : Nat := 4096
def numPorts : Nat := 7
def numLeds : Nat := 5

def vlanNone : BitVec 16 := 0xfff
def portsNone : BitVec 32 := 0
def portsAll : BitVec 32 := 0x7f
def portsNocpu : BitVec 32 := 0x3f
def portsCpu : BitVec 32 := 0x40

/-! ## the registers -/

abbrev Regs := Nat → BitVec 32

/-- `BIT(i)` -/
def bit (i : Nat) : BitVec 32 := (1 : BitVec 32) <<< i

def regImr : Nat := 0x04
def regFct0 : Nat := 0x08
def regPfc1 : Nat := 0x14
def regFpa : Nat := 0x84
def regSocpc : Nat := 0x8c
def regPoc0 : Nat := 0x90
def regPoc2 : Nat := 0x98
def regSgc : Nat := 0x9c
def regP0led : Nat := 0xa4
def regPcr0 : Nat := 0xc0
def regFpa2 : Nat := 0xc8
def regFct2 : Nat := 0xcc
def regSgc2 : Nat := 0xe4

def pvidc : Bank := ⟨0x40, 2, 12, by decide, by decide⟩
def vlani : Bank := ⟨0x50, 2, 12, by decide, by decide⟩

theorem vmsc_pos : 0 < 4 := by decide

def vmsc : Bank := ⟨0x70, 4, 8, vmsc_pos, by decide⟩

def w32 (r : Regs) (val : BitVec 32) (reg : Nat) : Regs := Function.update r reg val

def rmw (r : Regs) (reg : Nat) (mask val : BitVec 32) : Regs :=
  Function.update r reg (Field.rmw (r reg) mask val)

def getVlanId (r : Regs) (vlan : Nat) : BitVec 32 := vlani.read r vlan
def setVlanId (r : Regs) (vlan : Nat) (vid : BitVec 32) : Regs := vlani.write r vlan vid

def setPvid (r : Regs) (port : Nat) (pvid : BitVec 32) : Regs := pvidc.write r port pvid

def getVmsc (r : Regs) (vlan : Nat) : BitVec 32 := vmsc.read r vlan
def setVmsc (r : Regs) (vlan : Nat) (msc : BitVec 32) : Regs := vmsc.write r vlan msc

/-- a write to a PHY; `ready`: the bit `WT_DONE` was seen clear before the timeout -/
structure Mii where
  ready : Bool
  phyAddr : BitVec 32
  phyRegister : BitVec 32
  writeData : BitVec 32

def miiWrite (r : Regs) (m : Mii) : Regs :=
  if m.ready then
    w32 r (((m.writeData &&& 0xffff) <<< 16) ||| (m.phyRegister <<< 8) ||| m.phyAddr ||| bit 13) regPcr0
  else r

def bmcr : BitVec 32 := 0
def bmcrPdown : BitVec 32 := 0x0800
def bmcrFulldplx : BitVec 32 := 0x0100
def bmcrAnrestart : BitVec 32 := 0x0200
def bmcrAnenable : BitVec 32 := 0x1000
def bmcrSpeed100 : BitVec 32 := 0x2000

def getPortDisable (poc0 : BitVec 32) : BitVec 32 := (poc0 >>> 23) &&& 0x7f

/-- one round of the loop of `esw_set_port_disable` -/
def setPhy (ready : Nat → Bool) (changed disableMask : BitVec 32) (r : Regs) (i : Nat) : Regs :=
  if changed.getLsbD i then
    miiWrite r ⟨ready i, BitVec.ofNat 32 i, bmcr,
      if disableMask.getLsbD i then bmcrPdown
      else bmcrFulldplx ||| bmcrAnenable ||| bmcrAnrestart ||| bmcrSpeed100⟩
  else r

def setPortDisable (ready : Nat → Bool) (r : Regs) (disableMask : BitVec 32) : Regs :=
  let oldMask := getPortDisable (r regPoc0)
  let changed := oldMask ^^^ disableMask
  let enableMask := oldMask &&& disableMask
  -- enable before writing to MII
  let r := rmw r regPoc0 ((0x7f : BitVec 32) <<< 23) (enableMask <<< 23)
  let r := (List.range numLeds).foldl (setPhy ready changed disableMask) r
  -- disable after writing to MII
  rmw r regPoc0 ((0x7f : BitVec 32) <<< 23) (disableMask <<< 23)

/-! ## the configuration -/

structure Port where
  disable : Bool
  doubletag : Bool
  untag : Bool
  led : BitVec 8
  pvid : BitVec 16

structure Vlan where
  ports : BitVec 8
  vid : BitVec 16

structure Esw where
  regs : Regs
  portMap : BitVec 8
  portDisable : BitVec 8
  globalVlanEnable : Bool
  altVlanDisable : Bool
  bcStormProtect : BitVec 32
  ledFrequency : BitVec 32
  vlans : Fin numVlans → Vlan
  ports : Fin numPorts → Port

def setGsc (s : Esw) (r : Regs) : Regs :=
  rmw (rmw r regSgc ((0x3 : BitVec 32) <<< 4) (s.bcStormProtect <<< 4)) regSgc
    ((0x3 : BitVec 32) <<< 23) (s.ledFrequency <<< 23)

/-- one round of the loop of `esw_apply_config` over the VLANs -/
def applyVlan (s : Esw) (r : Regs) (i : Fin numVlans) : Regs :=
  if s.globalVlanEnable then
    setVmsc (setVlanId r i ((s.vlans i).vid.setWidth 32)) i ((s.vlans i).ports.setWidth 32)
  else setVmsc (setVlanId r i (vlanNone.setWidth 32)) i portsNone

/-- the masks that the loop over the ports collects -/
structure Masks where
  regs : Regs
  disable : BitVec 8
  doubletag : BitVec 8
  enVlan : BitVec 8
  untag : BitVec 8

def flag (x : Bool) (i : Nat) : BitVec 8 := (BitVec.ofBool x).setWidth 8 <<< i

def applyPort (s : Esw) (a : Masks) (i : Fin numPorts) : Masks :=
  let p := s.ports i
  let x := !s.altVlanDisable
  let on := s.globalVlanEnable
  let r := setPvid a.regs i (if on then p.pvid.setWidth 32 else 0)
  { regs := if i < numLeds then w32 r (p.led.setWidth 32) (regP0led + 4 * i) else r
    disable := a.disable ||| flag p.disable i
    doubletag := a.doubletag ||| flag (if on then p.doubletag else x) i
    enVlan := a.enVlan ||| flag (if on then true else x) i
    untag := a.untag ||| flag (if on then p.untag else x) i }

def applyRegs (ready : Nat → Bool) (s : Esw) : Regs :=
  let r := (List.finRange numVlans).foldl (applyVlan s) s.regs
  let a := (List.finRange numPorts).foldl (applyPort s) ⟨r, 0, 0, 0, 0⟩
  let r := setPortDisable ready (setGsc s a.regs) (a.disable.setWidth 32)
  let r := rmw r regSgc2 0x7f (a.doubletag.setWidth 32)
  let r := rmw r regPfc1 ((0xff : BitVec 32) <<< 16) (a.enVlan.setWidth 32 <<< 16)
  let r := rmw r regPoc2 0xff (a.untag.setWidth 32)
  -- all ports into vlan 0, or they are isolated
  if s.globalVlanEnable then r else setVmsc (setVlanId r 0 0) 0 portsAll

def applyConfig (ready : Nat → Bool) (s : Esw) : Esw := { s with regs := applyRegs ready s }

/-! ## the reset -/

/-- what `esw_hw_init` meets: the value of `POC0` after all ports are enabled, where the bits of
missing ports stay set, the values of the device tree, the PHY set-up of the SoC and the waiting
loops -/
structure Hw where
  poc0 : BitVec 32
  initvalFct2 : BitVec 32
  initvalFpa2 : BitVec 32
  phy : List Mii
  ledPolarity : Option (BitVec 32)
  ready : Nat → Bool

def hwInit (hw : Hw) (s : Esw) : Esw :=
  let r := w32 s.regs 0xC8A07850 regFct0
  let r := w32 r 0x00000000 regSgc2
  let r := w32 r (0x00005555 ||| (portsAll <<< 16)) regPfc1
  let r := w32 r (portsAll ||| (portsAll <<< 8)) regPoc0
  let r := w32 r ((portsAll <<< 8) ||| portsNocpu) regPoc2
  let r := w32 r (if hw.initvalFct2 ≠ 0 then hw.initvalFct2 else 0x0002500c) regFct2
  let r := w32 r 0x0008a301 regSgc
  let r := w32 r (bit 25 ||| portsCpu ||| (portsCpu <<< 8) ||| (portsCpu <<< 16)) regSocpc
  let r := w32 r (if hw.initvalFpa2 ≠ 0 then hw.initvalFpa2 else 0x3f502b28) regFpa2
  let r := w32 r 0x00000000 regFpa
  let r := (List.range numLeds).foldl (fun r i => w32 r 0x00000005 (regP0led + 4 * i)) r
  let portDisable := s.portDisable ||| (getPortDisable hw.poc0).setWidth 8
  let r := w32 r hw.poc0 regPoc0
  let r := match hw.ledPolarity with
    | none => r
    | some p => w32 r (p &&& 0x1F) 0x168
  let r := hw.phy.foldl miiWrite r
  let portMap := if s.portMap ≠ 0 then s.portMap else 0x3f
  let r := rmw r regSgc2 ((0x3f : BitVec 32) <<< 24) (portMap.setWidth 32 <<< 24)
  -- the disabled ports, and the switch leds blink
  let ports : Fin numPorts → Port := fun i =>
    { s.ports i with
      disable := if i.val < 6 then portDisable.getLsbD i else (s.ports i).disable
      led := if i < numLeds then 0x05 else (s.ports i).led }
  let s := applyConfig hw.ready { s with regs := r, ports := ports }
  -- only unmask the port change interrupt
  { s with regs := w32 s.regs (~~~bit 26) regImr }

def resetSwitch (hw : Hw) (s : Esw) : Esw :=
  hwInit hw { s with
    globalVlanEnable := false
    ports := fun _ => ⟨false, false, false, 0, 0⟩
    vlans := fun _ => ⟨0, 0⟩ }

/-! ## swconfig -/

structure SwitchPort where
  id : Nat
  flags : BitVec 32

/-- `1 << SWITCH_PORT_FLAG_TAGGED` -/
def tagged : BitVec 32 := bit 2

structure SwitchVal where
  portVlan : Nat
  ports : List SwitchPort

/-- the VLAN of this VID in the registers -/
def findVlan (r : Regs) (vid : Nat) : Option (Fin numVlans) :=
  (List.finRange numVlans).find? fun i => (getVlanId r i).toNat = vid ∧ getVmsc r i ≠ portsNone

def getVlanPorts (s : Esw) (vid : Nat) : Except Int (List SwitchPort) :=
  if vid ≥ numVids then .error eInval
  else match findVlan s.regs vid with
    | none => .error eInval
    | some i =>
      let msc := getVmsc s.regs i
      let poc2 := s.regs regPoc2
      .ok (((List.range numPorts).filter fun p => msc.getLsbD p).map fun p =>
        ⟨p, if poc2.getLsbD p then 0 else tagged⟩)

/-- "one of the already defined vlans?", else "a free slot" -/
def findSlot (t : Fin numVlans → Vlan) (vid : Nat) : Option (Fin numVlans) :=
  ((List.finRange numVlans).find? fun i => (t i).vid.toNat = vid ∧ (t i).ports ≠ 0).or
    ((List.finRange numVlans).find? fun i => (t i).ports = 0)

/-- the loop of `esw_set_vlan_ports`; without a mask it is left with `-EINVAL`, and the ports
before have their flag -/
def setUntag : List SwitchPort → BitVec 32 → (Fin numPorts → Port) → (Fin numPorts → Port) × Option (BitVec 32)
  | [], mask, ports => (ports, some mask)
  | p :: l, mask, ports =>
    if h : p.id < numPorts then
      setUntag l (mask ||| bit p.id)
        (Function.update ports ⟨p.id, h⟩ { ports ⟨p.id, h⟩ with untag := p.flags &&& tagged = 0 })
    else (ports, none)

def setVlanPorts (s : Esw) (val : SwitchVal) : Esw × Int :=
  if val.portVlan ≥ numVids ∨ val.ports.length > numPorts then (s, eInval)
  else match findSlot s.vlans val.portVlan with
    | none => (s, eInval)
    | some i =>
      match setUntag val.ports portsNone s.ports with
      | (ports, none) => ({ s with ports := ports }, eInval)
      | (ports, some mask) =>
        let vid := if mask = portsNone then vlanNone else BitVec.ofNat 16 val.portVlan
        ({ s with ports := ports, vlans := Function.update s.vlans i ⟨mask.setWidth 8, vid⟩ }, 0)

inductive PortAttr where
  | disable
  | doubletag
  | untag

def setPortBool (s : Esw) (attr : PortAttr) (idx : Nat) (val : Int) : Esw × Int :=
  if h : idx < numPorts ∧ 0 ≤ val ∧ val ≤ 1 then
    let p := s.ports ⟨idx, h.1⟩
    let x := decide (val ≠ 0)
    let p := match attr with
      | .disable => { p with disable := x }
      | .doubletag => { p with doubletag := x }
      | .untag => { p with untag := x }
    ({ s with ports := Function.update s.ports ⟨idx, h.1⟩ p }, 0)
  else (s, eInval)

def setPortLed (s : Esw) (idx : Nat) (val : BitVec 32) : Esw × Int :=
  if h : idx < numLeds then
    let i : Fin numPorts := ⟨idx, lt_trans h (by decide)⟩
    ({ s with ports := Function.update s.ports i { s.ports i with led := val.setWidth 8 } }, 0)
  else (s, eInval)

def setPortPvid (s : Esw) (port : Nat) (val : BitVec 32) : Esw × Int :=
  if h : port < numPorts then
    let i : Fin numPorts := ⟨port, h⟩
    ({ s with ports := Function.update s.ports i { s.ports i with pvid := val.setWidth 16 } }, 0)
  else (s, eInval)

inductive Op where
  | setVlanPorts (val : SwitchVal)
  | setVlanEnable (val : BitVec 32)
  | setAltVlanDisable (val : BitVec 32)
  | setBcStatus (val : BitVec 32)
  | setLedFreq (val : BitVec 32)
  | setPortBool (attr : PortAttr) (idx : Nat) (val : Int)
  | setPortLed (idx : Nat) (val : BitVec 32)
  | setPortPvid (port : Nat) (val : BitVec 32)
  | applyConfig (ready : Nat → Bool)

def step (s : Esw) : Op → Esw × Int
  | .setVlanPorts val => setVlanPorts s val
  | .setVlanEnable val => ({ s with globalVlanEnable := decide (val ≠ 0) }, 0)
  | .setAltVlanDisable val => ({ s with altVlanDisable := decide (val ≠ 0) }, 0)
  | .setBcStatus val => ({ s with bcStormProtect := val &&& 0x3 }, 0)
  | .setLedFreq val => ({ s with ledFrequency := val &&& 0x3 }, 0)
  | .setPortBool attr idx val => setPortBool s attr idx val
  | .setPortLed idx val => setPortLed s idx val
  | .setPortPvid port val => setPortPvid s port val
  | .applyConfig ready => (applyConfig ready s, 0)

def run (s : Esw) (ops : List Op) : Esw := ops.foldl (fun s op => (step s op).1) s

/-- the calls and what they return -/
def log (s : Esw) : List Op → List (Op × Int)
  | [] => []
  | op :: l => (op, (step s op).2) :: log (step s op).1 l

end Rt3050
