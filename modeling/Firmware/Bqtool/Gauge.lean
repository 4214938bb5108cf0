import Firmware.Lib.Bytes
import Mathlib.Logic.Function.Basic

/-!
# bqtool: blocks of the data memory

`gauge.c` up to `write_dm_block`, over any bus.

* `Bus`             `read`, `write` and `sleep_ms` of `struct gauge_info_t`;
* `doRead`, `doWrite`, `readByte`, `writeByte`, `doRwDmBlock`, `rwDmBlock`;
* `Device`, `memoryBus` a gauge of which no operation fails, with 32 bytes in each block;
* `readDmBlock_memory`, `writeDmBlock_memory` what the functions do there.
-/

set_option linter.unusedVariables false

namespace Bqtool
open Img

def REG_BLOCK_DATA_CLASS : UInt8 := 0x3E
def REG_DATA_BLOCK : UInt8 := 0x3F
def REG_BLOCK_DATA : UInt8 := 0x40
def REG_BLOCK_DATA_CHECKSUM : UInt8 := 0x60
def REG_BLOCK_DATA_CONTROL : UInt8 := 0x61

/-- the callbacks: the slave address, then the register; a `read` stores `len` bytes in any case -/
structure Bus (σ : Type) where
  read : σ → UInt8 → UInt8 → (len : UInt8) → Bool × Vector UInt8 len.toNat × σ
  write : σ → UInt8 → List UInt8 → Bool × σ
  sleepMs : σ → Nat → σ

section
variable {σ : Type} (bus : Bus σ) (addr : UInt8)

/-- the loop of `do_read`, with `buf` at position `pos` of a memory -/
def readTries (pos : Nat) (len : UInt8) : Nat → σ → List UInt8 → Bool × List UInt8 × σ
  | 0, st, buf => (false, buf, st)
  | n + 1, st, buf =>
    let (ok, d, st) := bus.read st addr (buf.getD pos 0) len
    let buf := poke buf (pos + 1) d.toList
    if ok then (true, buf, st) else readTries pos len n (bus.sleepMs st 10) buf

def doRead (st : σ) (buf : List UInt8) (pos : Nat) (len : UInt8) : Bool × List UInt8 × σ :=
  readTries bus addr pos len 4 st buf

def writeTries (msg : List UInt8) : Nat → σ → Bool × σ
  | 0, st => (false, st)
  | n + 1, st =>
    let (ok, st) := bus.write st addr msg
    if ok then (true, st) else writeTries msg n (bus.sleepMs st 10)

/-- the register and `len` bytes behind it -/
def doWrite (st : σ) (buf : List UInt8) (pos : Nat) (len : UInt8) : Bool × σ :=
  writeTries bus addr (slice buf pos (len.toNat + 1)) 4 st

def writeByte (st : σ) (reg val : UInt8) : Bool × σ := doWrite bus addr st [reg, val] 0 1

def readByte (st : σ) (reg : UInt8) : UInt8 × σ :=
  let (ok, buf, st) := doRead bus addr st [reg, 0] 0 1
  (if ok then buf.getD 1 0 else 0, st)

def checksum (data : List UInt8) : UInt8 :=
  0xFF - (data.foldl (fun (sum : UInt16) (b : UInt8) => sum + b.toUInt16) 0 &&& 0xFF).toUInt8

/-- `do_rw_dm_block` with its `buf` at position `pos` -/
def doRwDmBlock (subclass blkInd : UInt8) (pos : Nat) (write : Bool) (delay : Nat) (st : σ)
    (buf : List UInt8) : Bool × List UInt8 × σ :=
  let (ok1, st) := writeByte bus addr st REG_BLOCK_DATA_CONTROL 0
  let (ok2, st) := writeByte bus addr st REG_BLOCK_DATA_CLASS subclass
  let (ok3, st) := writeByte bus addr st REG_DATA_BLOCK blkInd
  let st := bus.sleepMs st 5
  let buf := poke buf pos [REG_BLOCK_DATA]
  if write then
    let (ok4, st) := doWrite bus addr st buf pos 32
    let cksumCalc := checksum (slice buf (pos + 1) 32)
    let (ok5, st) := writeByte bus addr st REG_BLOCK_DATA_CHECKSUM cksumCalc
    let st := bus.sleepMs st delay
    let (ok6, st) := writeByte bus addr st REG_DATA_BLOCK blkInd
    let st := bus.sleepMs st 5
    let (cksum, st) := readByte bus addr st REG_BLOCK_DATA_CHECKSUM
    (ok1 && ok2 && ok3 && ok4 && ok5 && ok6 && cksum == cksumCalc, buf, st)
  else
    let (ok4, buf, st) := doRead bus addr st buf pos 32
    let (cksum, st) := readByte bus addr st REG_BLOCK_DATA_CHECKSUM
    (ok1 && ok2 && ok3 && ok4 && cksum == checksum (slice buf (pos + 1) 32), buf, st)

/-- the loop of `rw_dm_block`: every try waits 100 ms longer -/
def rwTries (subclass blkInd : UInt8) (pos : Nat) (write : Bool) :
    Nat → Nat → σ → List UInt8 → Bool × List UInt8 × σ
  | 0, _, st, buf => (false, buf, st)
  | n + 1, delay, st, buf =>
    let (ok, buf, st) := doRwDmBlock bus addr subclass blkInd pos write delay st buf
    if ok then (true, buf, st) else rwTries subclass blkInd pos write n (delay + 100) st buf

def rwDmBlock (subclass blkInd : UInt8) (pos : Nat) (write : Bool) (st : σ) (buf : List UInt8) :
    Bool × List UInt8 × σ := rwTries bus addr subclass blkInd pos write 5 300 st buf

def readDmBlock (subclass blkInd : UInt8) (pos : Nat) (st : σ) (buf : List UInt8) :
    Bool × List UInt8 × σ := rwDmBlock bus addr subclass blkInd pos false st buf

def writeDmBlock (subclass blkInd : UInt8) (pos : Nat) (st : σ) (buf : List UInt8) :
    Bool × List UInt8 × σ := rwDmBlock bus addr subclass blkInd pos true st buf

end

/-! ## A gauge that does not fail -/

/-- the data memory: subclass, block, byte -/
abbrev Memory := UInt8 × UInt8 → Fin 32 → UInt8

/-- the memory, and the registers through which one block of it is seen -/
structure Device where
  mem : Memory
  cls : UInt8
  blk : UInt8
  data : Fin 32 → UInt8

/-- a write of a block's number shows the block, the right checksum stores what is shown -/
def Device.write (d : Device) : List UInt8 → Device
  | [] => d
  | reg :: msg =>
    if reg = REG_BLOCK_DATA_CLASS then { d with cls := msg.getD 0 0 }
    else if reg = REG_DATA_BLOCK then
      { d with blk := msg.getD 0 0, data := d.mem (d.cls, msg.getD 0 0) }
    else if reg = REG_BLOCK_DATA then { d with data := fun i => msg.getD i 0 }
    else if reg = REG_BLOCK_DATA_CHECKSUM then
      if msg.getD 0 0 = checksum (List.ofFn d.data) then
        { d with mem := Function.update d.mem (d.cls, d.blk) d.data }
      else d
    else d

def Device.read (d : Device) (reg : UInt8) (n : Nat) : Vector UInt8 n :=
  Vector.ofFn fun i =>
    if reg = REG_BLOCK_DATA then if h : i.val < 32 then d.data ⟨i, h⟩ else 0
    else if reg = REG_BLOCK_DATA_CHECKSUM then checksum (List.ofFn d.data)
    else 0

def memoryBus : Bus Device where
  read d _ reg len := (true, d.read reg len.toNat, d)
  write d _ msg := (true, d.write msg)
  sleepMs d _ := d

variable (addr : UInt8)

theorem doWrite_memory (d : Device) (buf : List UInt8) (pos : Nat) (len : UInt8) :
    doWrite memoryBus addr d buf pos len = (true, d.write (slice buf pos (len.toNat + 1))) := rfl

theorem writeByte_memory (d : Device) (reg val : UInt8) :
    writeByte memoryBus addr d reg val = (true, d.write [reg, val]) := rfl

theorem doRead_memory (d : Device) (buf : List UInt8) (pos : Nat) (len : UInt8) :
    doRead memoryBus addr d buf pos len
      = (true, poke buf (pos + 1) (d.read (buf.getD pos 0) len.toNat).toList, d) := rfl

theorem sleepMs_memory (d : Device) (ms : Nat) : memoryBus.sleepMs d ms = d := rfl

theorem readByte_checksum (d : Device) :
    readByte memoryBus addr d REG_BLOCK_DATA_CHECKSUM = (checksum (List.ofFn d.data), d) := rfl

/-- the registers after a block has been chosen -/
def Device.shown (d : Device) (subclass blkInd : UInt8) : Device :=
  { d with cls := subclass, blk := blkInd, data := d.mem (subclass, blkInd) }

theorem select_memory (d : Device) (subclass blkInd : UInt8) :
    ((d.write [REG_BLOCK_DATA_CONTROL, 0]).write [REG_BLOCK_DATA_CLASS, subclass]).write
      [REG_DATA_BLOCK, blkInd] = d.shown subclass blkInd := by
  have h1 : d.write [REG_BLOCK_DATA_CONTROL, 0] = d := by
    simp [Device.write, REG_BLOCK_DATA_CONTROL, REG_BLOCK_DATA_CLASS, REG_DATA_BLOCK, REG_BLOCK_DATA,
      REG_BLOCK_DATA_CHECKSUM]
  rw [h1]
  simp [Device.write, Device.shown, REG_BLOCK_DATA_CLASS, REG_DATA_BLOCK]

theorem select_again (d : Device) (blkInd : UInt8) :
    d.write [REG_DATA_BLOCK, blkInd] = d.shown d.cls blkInd := by
  simp [Device.write, Device.shown, REG_BLOCK_DATA_CLASS, REG_DATA_BLOCK]

/-- the bytes of a message to `REG_BLOCK_DATA` -/
theorem write_data (d : Device) (msg : List UInt8) :
    d.write (REG_BLOCK_DATA :: msg) = { d with data := fun i => msg.getD i 0 } := by
  simp [Device.write, REG_BLOCK_DATA_CLASS, REG_DATA_BLOCK, REG_BLOCK_DATA]

theorem write_checksum (d : Device) :
    d.write [REG_BLOCK_DATA_CHECKSUM, checksum (List.ofFn d.data)]
      = { d with mem := Function.update d.mem (d.cls, d.blk) d.data } := by
  simp [Device.write, REG_BLOCK_DATA_CLASS, REG_DATA_BLOCK, REG_BLOCK_DATA, REG_BLOCK_DATA_CHECKSUM]

theorem read_data (d : Device) : (d.read REG_BLOCK_DATA 32).toList = List.ofFn d.data := by
  unfold Device.read
  rw [Vector.toList_ofFn]
  congr 1
  funext i
  rw [if_pos rfl, dif_pos i.isLt]

theorem doRead_data (d : Device) {buf : List UInt8} {pos : Nat}
    (h : buf.getD pos 0 = REG_BLOCK_DATA) :
    doRead memoryBus addr d buf pos 32 = (true, poke buf (pos + 1) (List.ofFn d.data), d) := by
  rw [doRead_memory, h]
  exact congrArg (fun l => (true, poke buf (pos + 1) l, d)) (read_data d)

/-- a message that is a register and 32 bytes -/
theorem slice_reg (buf : List UInt8) {pos : Nat} (h : pos + 33 ≤ buf.length) :
    slice (poke buf pos [REG_BLOCK_DATA]) pos 33
      = REG_BLOCK_DATA :: slice buf (pos + 1) 32 := by
  have h1 : slice (poke buf pos [REG_BLOCK_DATA]) pos 1 = [REG_BLOCK_DATA] :=
    slice_poke_self buf pos [REG_BLOCK_DATA] (by rw [List.length_singleton]; omega)
  have h2 : slice (poke buf pos [REG_BLOCK_DATA]) (pos + 1) 32 = slice buf (pos + 1) 32 :=
    slice_poke_after buf pos (pos + 1) 32 [REG_BLOCK_DATA] (Nat.le_refl _)
      (by rw [List.length_singleton]; omega)
  rw [show (33 : Nat) = 1 + 32 from rfl, slice_add, h1, h2]
  rfl

/-- **`read_dm_block`**: the register's number and the block's bytes are in the buffer. -/
theorem readDmBlock_memory (subclass blkInd : UInt8) (d : Device) (buf : List UInt8) (pos : Nat)
    (h : pos + 33 ≤ buf.length) :
    readDmBlock memoryBus addr subclass blkInd pos d buf
      = (true, poke buf pos (REG_BLOCK_DATA :: List.ofFn (d.mem (subclass, blkInd))),
          d.shown subclass blkInd) := by
  have hlen : (List.ofFn (d.mem (subclass, blkInd))).length = 32 := List.length_ofFn
  have hreg : (poke buf pos [REG_BLOCK_DATA]).getD pos 0 = REG_BLOCK_DATA := by
    rw [poke_getD _ _ _ _ _ (by rw [List.length_singleton]; omega),
      if_pos ⟨Nat.le_refl _, by rw [List.length_singleton]; omega⟩, Nat.sub_self]
    rfl
  have hbuf : poke (poke buf pos [REG_BLOCK_DATA]) (pos + 1) (List.ofFn (d.mem (subclass, blkInd)))
      = poke buf pos (REG_BLOCK_DATA :: List.ofFn (d.mem (subclass, blkInd))) :=
    poke_cons buf _ _ (by omega)
  have hdata : slice (poke buf pos (REG_BLOCK_DATA :: List.ofFn (d.mem (subclass, blkInd)))) (pos + 1) 32
      = List.ofFn (d.mem (subclass, blkInd)) := by
    rw [← hbuf]
    have hs := slice_poke_self (poke buf pos [REG_BLOCK_DATA]) (pos + 1)
      (List.ofFn (d.mem (subclass, blkInd)))
      (by rw [hlen, poke_length _ _ _ (by rw [List.length_singleton]; omega)]; omega)
    rwa [hlen] at hs
  have hd : doRwDmBlock memoryBus addr subclass blkInd pos false 300 d buf
      = (true, poke buf pos (REG_BLOCK_DATA :: List.ofFn (d.mem (subclass, blkInd))),
          d.shown subclass blkInd) := by
    unfold doRwDmBlock
    simp only [writeByte_memory, sleepMs_memory, select_memory, doRead_data addr _ hreg,
      readByte_checksum, Bool.false_eq_true, if_false]
    have hshown : (d.shown subclass blkInd).data = d.mem (subclass, blkInd) := rfl
    rw [hshown, hbuf, hdata, beq_self_eq_true]
    rfl
  unfold readDmBlock rwDmBlock rwTries
  rw [hd]
  rfl

/-- **`write_dm_block`**: the block's bytes are those of the buffer. -/
theorem writeDmBlock_memory (subclass blkInd : UInt8) (d : Device) (buf : List UInt8) (pos : Nat)
    (h : pos + 33 ≤ buf.length) :
    ∃ d' : Device, writeDmBlock memoryBus addr subclass blkInd pos d buf
        = (true, poke buf pos [REG_BLOCK_DATA], d')
      ∧ d'.mem = Function.update d.mem (subclass, blkInd) fun i => buf.getD (pos + 1 + i) 0 := by
  have hdata : (fun i : Fin 32 => (slice buf (pos + 1) 32).getD i 0)
      = fun i : Fin 32 => buf.getD (pos + 1 + i) 0 := by
    funext i
    rw [slice_getD _ _ _ _ _ i.isLt]
  have hbytes : List.ofFn (fun i : Fin 32 => (slice buf (pos + 1) 32).getD i 0)
      = slice buf (pos + 1) 32 := by
    have hl : (slice buf (pos + 1) 32).length = 32 := slice_length _ _ _ (by omega)
    refine List.ext_getElem (by rw [List.length_ofFn, hl]) fun i h1 h2 => ?_
    rw [List.getElem_ofFn, List.getD_eq_getElem?_getD, List.getElem?_eq_getElem h2, Option.getD_some]
  have hslice : slice (poke buf pos [REG_BLOCK_DATA]) (pos + 1) 32 = slice buf (pos + 1) 32 :=
    slice_poke_after buf pos (pos + 1) 32 [REG_BLOCK_DATA] (Nat.le_refl _)
      (by rw [List.length_singleton]; omega)
  -- the device after the data and the checksum have been written
  let d1 : Device := { d.shown subclass blkInd with
    data := fun i => (slice buf (pos + 1) 32).getD i 0 }
  let d2 : Device := { d1 with mem := Function.update d.mem (subclass, blkInd) d1.data }
  have hmsg : ∀ e : Device, doWrite memoryBus addr e (poke buf pos [REG_BLOCK_DATA]) pos 32
      = (true, { e with data := fun i => (slice buf (pos + 1) 32).getD i 0 }) := by
    intro e
    rw [doWrite_memory, show (32 : UInt8).toNat + 1 = 33 from rfl, slice_reg buf h, write_data]
  have hsum : d1.write [REG_BLOCK_DATA_CHECKSUM, checksum (slice buf (pos + 1) 32)] = d2 := by
    rw [← hbytes]
    exact write_checksum d1
  have hback : (d2.shown d2.cls blkInd).data = d1.data := Function.update_self _ _ _
  have hd : doRwDmBlock memoryBus addr subclass blkInd pos true 300 d buf
      = (true, poke buf pos [REG_BLOCK_DATA], d2.shown subclass blkInd) := by
    unfold doRwDmBlock
    simp only [writeByte_memory, sleepMs_memory, select_memory, hmsg, readByte_checksum, if_true]
    rw [hslice]
    change (_ && checksum (List.ofFn ((d1.write _).write _).data) == _, _, (d1.write _).write _) = _
    rw [hsum, select_again, hback, hbytes, beq_self_eq_true]
    rfl
  refine ⟨d2.shown subclass blkInd, ?_, ?_⟩
  · unfold writeDmBlock rwDmBlock rwTries
    rw [hd]
    rfl
  · show Function.update d.mem (subclass, blkInd) d1.data = _
    rw [← hdata]

end Bqtool
