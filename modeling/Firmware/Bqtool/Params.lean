import Firmware.Lib.Exits
import Firmware.Lib.Oneline
import Firmware.Bqtool.Gauge

/-!
# bqtool: parameters written to the data memory

`write_params_block`, on a gauge of which no operation fails.

* `Layout`, `Param`     `struct param_t`, with what the function reads of it;
* `checkLimits`, `encode`, `writeParam`, `writeParamsBlock` the functions;
* `Holds`               a memory, the block in `buf` and the one behind it;
* `writeParam_step`     one parameter is one request to a cache of one line, in every column.
-/

set_option linter.unusedVariables false

namespace Bqtool
open Img Word Exits

inductive RawType
  | I | U | F | S
deriving DecidableEq

inductive ByteOrder
  | LE | BE
deriving DecidableEq

inductive Ic
  | X | B
deriving DecidableEq

structure Gauge where
  ic : Ic
  endianness : ByteOrder
  slaveAddr : UInt8

/-- where a parameter lies, and what it is -/
structure Layout where
  rawType : RawType
  offset : UInt32
  dataLen : UInt8
  len_le : dataLen.toNat ≤ 32
deriving DecidableEq

/-- `val`, `min` and `max` as the words in their unions; `behind` is the memory behind `max` -/
structure Param extends Layout where
  valS : List UInt8
  val : UInt32
  min : UInt32
  max : UInt32
  behind : List UInt8
  valS_len : rawType = .S → dataLen.toNat ≤ valS.length
  behind_len : behind.length = 20

/-! ## `check_limits` -/

def signExtend (val : UInt32) (len : UInt8) : Int :=
  if len = 1 then val.toUInt8.toInt8.toInt
  else if len = 2 then val.toUInt16.toInt16.toInt
  else val.toInt32.toInt

/-- where a `float` lies among the others; `none` is not a number -/
def floatRank (w : UInt32) : Option Int :=
  let mag := (w &&& 0x7FFFFFFF).toNat
  if 0x7F800000 < mag then none else if w &&& 0x80000000 = 0 then some mag else some (-mag)

/-- `a > b` for `float` -/
def floatGt (a b : UInt32) : Bool :=
  match floatRank a, floatRank b with
  | some x, some y => y < x
  | _, _ => false

def checkLimits (p : Param) : Bool :=
  match p.rawType with
  | .I =>
    let val := signExtend p.val p.dataLen
    !(signExtend p.max p.dataLen < val) && !(val < signExtend p.min p.dataLen)
  | .U => !(p.max < p.val) && !(p.val < p.min)
  | .F => !floatGt p.val p.max && !floatGt p.min p.val
  | .S => true

/-! ## The bytes of a parameter -/

/-- the first `len` bytes the other way round -/
def reverseByteorder (val : List UInt8) (len : Nat) : List UInt8 :=
  (val.take len).reverse ++ val.drop len

def ieeeFloatToX (f : List UInt8) : List UInt8 :=
  let f3 := f.getD 3 0
  let f2 := f.getD 2 0
  [(f3 <<< 1 + 2) ||| (if f2 &&& 0x80 = 0 then 0 else 1),
    (f2 &&& 0x7F) ||| (if f3 &&& 0x80 = 0 then 0 else 0x80), f.getD 1 0, f.getD 0 0]

/-- the memory from `&val` on -/
def Param.bytes (p : Param) (host : ByteOrder) : List UInt8 :=
  put32 (host = .BE) p.val ++ put32 (host = .BE) p.min ++ put32 (host = .BE) p.max ++ p.behind

/-- a number that is converted to the gauge's own floats -/
def Layout.xFloat (g : Gauge) (p : Layout) : Bool := g.ic = .X ∧ p.rawType = .F

/-- what is stored at `buf[offset + 1]`; `none` is a write behind `tmp_val` -/
def Param.encode (host : ByteOrder) (g : Gauge) (p : Param) : Option (List UInt8) :=
  let len := p.dataLen.toNat
  if p.xFloat g then
    let tmpVal := put32 (host = .BE) p.val
    if host = .BE then
      if 4 < len then none else some (ieeeFloatToX (reverseByteorder tmpVal len))
    else some (ieeeFloatToX tmpVal)
  else if p.rawType = .S then some (p.valS.take len)
  else if g.endianness ≠ host then some ((p.bytes host).take len).reverse
  else some ((p.bytes host).take len)

/-- how many bytes that is: four for a converted float, whatever its `data_len` -/
def Layout.size (g : Gauge) (p : Layout) : Nat := if p.xFloat g then 4 else p.dataLen.toNat

def Layout.subclass (p : Layout) : UInt8 := ((p.offset &&& 0xFF000000) >>> 24).toUInt8

/-- the low byte of the offset: three bits for the block, five for the byte in it -/
def Layout.blkInd (p : Layout) : UInt8 := (p.offset &&& 0xFF).toUInt8 >>> 5

def Layout.pos (p : Layout) : Nat := ((p.offset &&& 0xFF).toUInt8 &&& 0x1F).toNat

/-- `offset + data_len > 32` -/
def Layout.twoblocks (p : Layout) : Bool := 32 < p.pos + p.dataLen.toNat

/-! ## `write_params_block` -/

structure Work (σ : Type) where
  dev : σ
  buf : List UInt8
  subclass : UInt8
  blkInd : UInt8
  blkIdPrev : UInt16
  err : Bool

section
variable {σ : Type} (bus : Bus σ) (host : ByteOrder) (g : Gauge)

def Work.readDm (subclass blkInd : UInt8) (pos : Nat) (s : Work σ) : Work σ :=
  let (ok, buf, dev) := readDmBlock bus g.slaveAddr subclass blkInd pos s.dev s.buf
  { s with dev := dev, buf := buf, err := s.err || !ok }

def Work.writeDm (subclass blkInd : UInt8) (s : Work σ) : Work σ :=
  let (ok, buf, dev) := writeDmBlock bus g.slaveAddr subclass blkInd 0 s.dev s.buf
  { s with dev := dev, buf := buf, err := s.err || !ok }

/-- the block that `blk_id_prev` names -/
def Work.writePrev (s : Work σ) : Work σ :=
  s.writeDm bus g ((s.blkIdPrev &&& 0xFF00) >>> 8).toUInt8 (s.blkIdPrev &&& 0xFF).toUInt8

/-- the block behind that of a parameter, to `&buf[32]` -/
def Work.readAhead (p : Param) (s : Work σ) : Work σ :=
  let tmp := s.buf.getD 32 0
  let s := s.readDm bus g p.subclass (p.blkInd + 1) 32
  { s with buf := poke s.buf 32 [tmp] }

def Layout.blkId (p : Layout) : UInt16 := p.subclass.toUInt16 <<< 8 ||| p.blkInd.toUInt16

/-- the block of a parameter, unless it is in `buf` -/
def wantBlock (i : Nat) (p : Param) : Exit (Work σ) Unit := do
  let s ← get
  if i = 0 ∨ p.blkId ≠ s.blkIdPrev then
    update fun s => if i = 0 then s else s.writePrev bus g
    update fun s => if s.err then s else s.readDm bus g p.subclass p.blkInd 0
    let s ← get
    guard (!s.err)

/-- the first block is written, the overflow buffer becomes the regular one -/
def Work.nextBlock (s : Work σ) : Work σ :=
  let s := s.writePrev bus g
  { s with buf := poke s.buf 1 (slice s.buf 33 32), blkIdPrev := s.blkIdPrev + 1 }

/-- the pass of the loop for one parameter, up to its bytes -/
def readParam (i : Nat) (p : Param) : Exit (Work σ) Unit := do
  guard (checkLimits p)
  update fun s => { s with subclass := p.subclass, blkInd := p.blkInd }
  update fun s => if p.twoblocks then s.readAhead bus g p else s
  wantBlock bus g i p

/-- the pass of the loop for one parameter -/
def writeParam (i : Nat) (p : Param) : Exit (Work σ) Unit := do
  readParam bus g i p
  let d ← access (p.encode host g)
  update fun s => { s with buf := poke s.buf (p.pos + 1) d, blkIdPrev := p.blkId }
  update fun s => if p.twoblocks then s.nextBlock bus g else s

/-- the loop from parameter `i` on, and the write behind it -/
def writeLoop : Nat → List Param → Exit (Work σ) Unit
  | _, [] => update fun s => s.writeDm bus g s.subclass s.blkInd
  | i, p :: ps => do
    let s ← get
    if s.err then update fun s => s.writeDm bus g s.subclass s.blkInd
    else
      writeParam bus host g i p
      writeLoop (i + 1) ps

/-- the result and the gauge; `stack` is what was in `buf`, `none` is a write behind `tmp_val` -/
def writeParamsBlock (stack : Vector UInt8 65) (ps : List Param) (dev : σ) : Option (Bool × σ) :=
  (writeLoop bus host g 0 ps ⟨dev, stack.toList, 0, 0, 0, false⟩).map fun r => (!r.2.err, r.2.dev)

end

/-! ## The numbers of the blocks -/

abbrev Block := UInt8 × UInt8

def blkIdOf (b : Block) : UInt16 := b.1.toUInt16 <<< 8 ||| b.2.toUInt16

theorem blkIdOf_toNat (b : Block) : (blkIdOf b).toNat = 256 * b.1.toNat + b.2.toNat := by
  have h1 := b.1.toNat_lt
  have h2 := b.2.toNat_lt
  have h : (b.1.toUInt16 <<< 8).toNat = b.1.toNat <<< 8 := by
    rw [UInt16.toNat_shiftLeft, UInt8.toNat_toUInt16, Nat.shiftLeft_eq, show (8 : UInt16).toNat % 16 = 8 from rfl]
    omega
  unfold blkIdOf
  rw [UInt16.toNat_or, h, UInt8.toNat_toUInt16, ← Nat.shiftLeft_add_eq_or_of_lt (by omega), Nat.shiftLeft_eq]
  omega

theorem blkIdOf_hi (b : Block) : ((blkIdOf b &&& 0xFF00) >>> 8).toUInt8 = b.1 := by
  have h := blkIdOf_toNat b
  have h1 := b.1.toNat_lt
  have h2 := b.2.toNat_lt
  apply UInt8.toNat_inj.mp
  rw [UInt16.toNat_toUInt8, UInt16.toNat_shiftRight, UInt16.toNat_and, h,
    show (8 : UInt16).toNat % 16 = 8 from rfl, Nat.shiftRight_and_distrib,
    show (0xFF00 : UInt16).toNat >>> 8 = 2 ^ 8 - 1 from rfl, Nat.and_two_pow_sub_one_eq_mod,
    Nat.shiftRight_eq_div_pow]
  omega

theorem blkIdOf_lo (b : Block) : (blkIdOf b &&& 0xFF).toUInt8 = b.2 := by
  have h := blkIdOf_toNat b
  have h2 := b.2.toNat_lt
  apply UInt8.toNat_inj.mp
  rw [UInt16.toNat_toUInt8, UInt16.toNat_and, h, show (0xFF : UInt16).toNat = 2 ^ 8 - 1 from rfl,
    Nat.and_two_pow_sub_one_eq_mod]
  omega

theorem blkIdOf_inj {b c : Block} (h : blkIdOf b = blkIdOf c) : b = c := by
  have hb := blkIdOf_hi b
  have hb' := blkIdOf_lo b
  rw [h, blkIdOf_hi] at hb
  rw [h, blkIdOf_lo] at hb'
  exact Prod.ext hb.symm hb'.symm

theorem blkIdOf_succ {b : Block} (h : b.2.toNat < 255) : blkIdOf b + 1 = blkIdOf (b.1, b.2 + 1) := by
  have h1 := b.1.toNat_lt
  have h2 : (b.2 + 1).toNat = b.2.toNat + 1 := by
    rw [UInt8.toNat_add, show (1 : UInt8).toNat = 1 from rfl]
    exact Nat.mod_eq_of_lt (by omega)
  apply UInt16.toNat_inj.mp
  rw [blkIdOf_toNat, UInt16.toNat_add, blkIdOf_toNat, show (1 : UInt16).toNat = 1 from rfl]
  show _ % 65536 = 256 * b.1.toNat + (b.2 + 1).toNat
  rw [h2]
  omega

def Layout.block (p : Layout) : Block := (p.subclass, p.blkInd)

def Layout.next (p : Layout) : Block := (p.subclass, p.blkInd + 1)

theorem Layout.blkId_eq (p : Layout) : p.blkId = blkIdOf p.block := rfl

theorem Layout.blkInd_lt (p : Layout) : p.blkInd.toNat < 8 := by
  have h := (p.offset &&& 0xFF).toUInt8.toNat_lt
  unfold Layout.blkInd
  rw [UInt8.toNat_shiftRight, Nat.shiftRight_eq_div_pow, show 2 ^ ((5 : UInt8).toNat % 8) = 32 from rfl]
  omega

theorem Layout.pos_lt (p : Layout) : p.pos < 32 := by
  unfold Layout.pos
  rw [UInt8.toNat_and, show (0x1F : UInt8).toNat = 2 ^ 5 - 1 from rfl, Nat.and_two_pow_sub_one_eq_mod]
  exact Nat.mod_lt _ (by decide)

theorem Layout.next_ne (p : Layout) : p.next ≠ p.block := by
  intro h
  have h1 := congrArg UInt8.toNat (congrArg Prod.snd h)
  have h2 := p.blkInd_lt
  have h3 : (p.blkInd + 1).toNat = p.blkInd.toNat + 1 := by
    rw [UInt8.toNat_add]
    exact Nat.mod_eq_of_lt (by rw [show (1 : UInt8).toNat = 1 from rfl]; omega)
  change (p.blkInd + 1).toNat = p.blkInd.toNat at h1
  omega

theorem encode_length {host : ByteOrder} {g : Gauge} {p : Param} {d : List UInt8}
    (h : p.encode host g = some d) : d.length = p.size g := by
  have hb : (p.bytes host).length = 32 := by
    unfold Param.bytes
    simp only [List.length_append, put32_length, p.behind_len]
  have hl := p.len_le
  unfold Param.encode at h
  unfold Layout.size
  dsimp only at h
  split at h
  · next hx =>
    rw [if_pos hx]
    split at h
    · split at h
      · cases h
      · exact Option.some.inj h ▸ rfl
    · exact Option.some.inj h ▸ rfl
  · next hx =>
    rw [if_neg hx]
    split at h
    · next hs =>
      rw [← Option.some.inj h, List.length_take, Nat.min_eq_left (p.valS_len hs)]
    · split at h
      · rw [← Option.some.inj h, List.length_reverse, List.length_take, Nat.min_eq_left (by omega)]
      · rw [← Option.some.inj h, List.length_take, Nat.min_eq_left (by omega)]

/-! ## The buffer and the memory -/

/-- the memory is `m`, `buf` has the block `line` and behind it the block `ahead` -/
structure Holds (m : Memory) (line ahead : Fin 32 → UInt8) (s : Work Device) : Prop where
  length : s.buf.length = 65
  err : s.err = false
  mem : s.dev.mem = m
  line : ∀ i : Fin 32, s.buf.getD (1 + i) 0 = line i
  ahead : ∀ i : Fin 32, s.buf.getD (33 + i) 0 = ahead i

/-- the fields that the blocks do not touch -/
def Same (s s' : Work Device) : Prop :=
  s'.subclass = s.subclass ∧ s'.blkInd = s.blkInd ∧ s'.blkIdPrev = s.blkIdPrev

theorem ofFn_getD (f : Fin 32 → UInt8) (i : Fin 32) : (List.ofFn f).getD i 0 = f i := by
  rw [List.getD_eq_getElem?_getD, List.getElem?_ofFn, dif_pos i.isLt]
  rfl

section
variable {g : Gauge} {m : Memory} {line ahead : Fin 32 → UInt8} {s : Work Device}

theorem Holds.readDm (h : Holds m line ahead s) (b : Block) :
    Holds m (m b) ahead (s.readDm memoryBus g b.1 b.2 0) ∧ Same s (s.readDm memoryBus g b.1 b.2 0) := by
  have hl : (REG_BLOCK_DATA :: List.ofFn (m b)).length = 33 := by
    rw [List.length_cons, List.length_ofFn]
  have hlen := h.length
  have e : s.readDm memoryBus g b.1 b.2 0 = { s with
      dev := s.dev.shown b.1 b.2, buf := poke s.buf 0 (REG_BLOCK_DATA :: List.ofFn (m b)) } := by
    unfold Work.readDm
    rw [readDmBlock_memory _ _ _ _ _ _ (by omega), ← h.mem]
    show Work.mk _ _ _ _ _ (s.err || false) = _
    rw [Bool.or_false]
  rw [e]
  refine ⟨⟨?_, h.err, h.mem, fun i => ?_, fun i => ?_⟩, rfl, rfl, rfl⟩
  · show (poke _ _ _).length = 65
    rw [poke_length _ _ _ (by omega), hlen]
  · show (poke _ _ _).getD _ 0 = _
    have hi := i.isLt
    rw [poke_getD _ _ _ _ _ (by omega), if_pos (by omega), Nat.sub_zero, Nat.add_comm, List.getD_cons_succ,
      ofFn_getD]
  · show (poke _ _ _).getD _ 0 = _
    rw [poke_getD _ _ _ _ _ (by omega), if_neg (by omega), h.ahead]

theorem Holds.readAhead (h : Holds m line ahead s) (p : Param) :
    Holds m line (m p.next) (s.readAhead memoryBus g p) ∧ Same s (s.readAhead memoryBus g p) := by
  have hl : (REG_BLOCK_DATA :: List.ofFn (m p.next)).length = 33 := by
    rw [List.length_cons, List.length_ofFn]
  have hlen := h.length
  have e : s.readAhead memoryBus g p = { s with
      dev := s.dev.shown p.next.1 p.next.2,
      buf := poke (poke s.buf 32 (REG_BLOCK_DATA :: List.ofFn (m p.next))) 32 [s.buf.getD 32 0] } := by
    unfold Work.readAhead Work.readDm
    rw [readDmBlock_memory _ _ _ _ _ _ (by omega), ← h.mem]
    show Work.mk _ _ _ _ _ (s.err || false) = _
    rw [Bool.or_false]
    rfl
  have hp : (poke s.buf 32 (REG_BLOCK_DATA :: List.ofFn (m p.next))).length = 65 := by
    rw [poke_length _ _ _ (by omega), hlen]
  rw [e]
  refine ⟨⟨?_, h.err, h.mem, fun i => ?_, fun i => ?_⟩, rfl, rfl, rfl⟩
  · show (poke _ _ _).length = 65
    rw [poke_length _ _ _ (by rw [List.length_singleton]; omega), hp]
  · show (poke _ _ _).getD _ 0 = _
    have hi := i.isLt
    rw [poke_getD _ _ _ _ _ (by rw [List.length_singleton]; omega), List.length_singleton, ← h.line]
    by_cases h31 : i.val = 31
    · rw [if_pos (by omega), h31]
      rfl
    · rw [if_neg (by omega), poke_getD _ _ _ _ _ (by omega), if_neg (by omega)]
  · show (poke _ _ _).getD _ 0 = _
    have hi := i.isLt
    rw [poke_getD _ _ _ _ _ (by rw [List.length_singleton]; omega), List.length_singleton,
      if_neg (by omega), poke_getD _ _ _ _ _ (by omega), if_pos (by omega),
      show 33 + i.val - 32 = i.val + 1 by omega, List.getD_cons_succ, ofFn_getD]

theorem Holds.writeDm (h : Holds m line ahead s) (b : Block) :
    Holds (Function.update m b line) line ahead (s.writeDm memoryBus g b.1 b.2)
      ∧ Same s (s.writeDm memoryBus g b.1 b.2) := by
  have hlen := h.length
  obtain ⟨d', hw, hm⟩ := writeDmBlock_memory g.slaveAddr b.1 b.2 s.dev s.buf 0 (by omega)
  have e : s.writeDm memoryBus g b.1 b.2 = { s with dev := d', buf := poke s.buf 0 [REG_BLOCK_DATA] } := by
    unfold Work.writeDm
    rw [hw]
    show Work.mk _ _ _ _ _ (s.err || false) = _
    rw [Bool.or_false]
  have hp (i : Nat) : (poke s.buf 0 [REG_BLOCK_DATA]).getD (i + 1) 0 = s.buf.getD (i + 1) 0 := by
    rw [poke_getD _ _ _ _ _ (by rw [List.length_singleton]; omega), List.length_singleton,
      if_neg (by omega)]
  rw [e]
  refine ⟨⟨?_, h.err, ?_, fun i => ?_, fun i => ?_⟩, rfl, rfl, rfl⟩
  · show (poke _ _ _).length = 65
    rw [poke_length _ _ _ (by rw [List.length_singleton]; omega), hlen]
  · show d'.mem = _
    rw [hm, h.mem]
    congr 1
    funext i
    rw [Nat.zero_add, h.line]
  · rw [← h.line, Nat.add_comm]
    exact hp i
  · rw [← h.ahead, show 33 + i.val = 32 + i.val + 1 by omega]
    exact hp (32 + i)

theorem Holds.writePrev (h : Holds m line ahead s) {b : Block} (hb : s.blkIdPrev = blkIdOf b) :
    Holds (Function.update m b line) line ahead (s.writePrev memoryBus g)
      ∧ Same s (s.writePrev memoryBus g) := by
  unfold Work.writePrev
  rw [hb, blkIdOf_hi, blkIdOf_lo]
  exact h.writeDm b

/-- what a parameter with the bytes `d` stores in column `j` -/
def Layout.put (p : Layout) (d : List UInt8) (j : Fin 32) : OneLine.Put Block UInt8 where
  blk := p.block
  nxt := p.next
  lo := if p.pos ≤ j then d[j.val - p.pos]? else none
  hi := d[32 + j.val - p.pos]?
  long := p.twoblocks
  ne := p.next_ne

/-- the bytes of a parameter in the buffer -/
theorem Holds.store (h : Holds m line ahead s) (p : Param) {d : List UInt8} (hd : d.length ≤ 32)
    (id : UInt16) :
    Holds m (fun j => (p.put d j).lo.getD (line j)) (fun j => (p.put d j).hi.getD (ahead j))
      { s with buf := poke s.buf (p.pos + 1) d, blkIdPrev := id } := by
  have hlen := h.length
  have hpos := p.pos_lt
  have hb : p.pos + 1 + d.length ≤ s.buf.length := by omega
  refine ⟨?_, h.err, h.mem, fun j => ?_, fun j => ?_⟩
  · show (poke _ _ _).length = 65
    rw [poke_length _ _ _ hb, hlen]
  · show (poke _ _ _).getD _ 0 = (if p.pos ≤ j then d[j.val - p.pos]? else none).getD (line j)
    rw [poke_getD _ _ _ _ _ hb, h.line]
    by_cases h1 : p.pos ≤ j.val
    · rw [if_pos h1]
      by_cases h2 : j.val < p.pos + d.length
      · rw [if_pos (by omega), List.getD_eq_getElem?_getD, show 1 + j.val - (p.pos + 1) = j.val - p.pos by omega,
          List.getElem?_eq_getElem (by omega)]
        rfl
      · rw [if_neg (by omega), List.getElem?_eq_none (by omega)]
        rfl
    · rw [if_neg (by omega), if_neg h1]
      rfl
  · show (poke _ _ _).getD _ 0 = (d[32 + j.val - p.pos]?).getD (ahead j)
    rw [poke_getD _ _ _ _ _ hb, h.ahead]
    by_cases h2 : 32 + j.val < p.pos + d.length
    · rw [if_pos (by omega), List.getD_eq_getElem?_getD,
        show 33 + j.val - (p.pos + 1) = 32 + j.val - p.pos by omega, List.getElem?_eq_getElem (by omega)]
      rfl
    · rw [if_neg (by omega), List.getElem?_eq_none (by omega)]
      rfl

/-- the block behind becomes the block in the buffer -/
theorem Holds.shift (h : Holds m line ahead s) (id : UInt16) :
    Holds m ahead ahead { s with buf := poke s.buf 1 (slice s.buf 33 32), blkIdPrev := id } := by
  have hlen := h.length
  have hs : (slice s.buf 33 32).length = 32 := slice_length _ _ _ (by omega)
  refine ⟨?_, h.err, h.mem, fun j => ?_, fun j => ?_⟩
  · show (poke _ _ _).length = 65
    rw [poke_length _ _ _ (by omega), hlen]
  · show (poke _ _ _).getD _ 0 = _
    have hj := j.isLt
    rw [poke_getD _ _ _ _ _ (by omega), if_pos (by omega), show 1 + j.val - 1 = j.val by omega,
      slice_getD _ _ _ _ _ hj, h.ahead]
  · show (poke _ _ _).getD _ 0 = _
    rw [poke_getD _ _ _ _ _ (by omega), if_neg (by omega), h.ahead]

/-! ## One parameter -/

/-- the cache of one line, in column `j` -/
def column (m : Memory) (line : Fin 32 → UInt8) (cur : Option Block) (j : Fin 32) :
    OneLine.State Block UInt8 := ⟨fun b => m b j, line j, cur⟩

/-- the block in the buffer before parameter `i` -/
def Cached (i : Nat) (cur : Option Block) (s : Work Device) : Prop :=
  (i = 0 ↔ cur = none) ∧ ∀ b, cur = some b → s.blkIdPrev = blkIdOf b

theorem update_column (m : Memory) (b : Block) (v : Fin 32 → UInt8) (j : Fin 32) :
    (fun c => Function.update m b v c j) = Function.update (fun c => m c j) b (v j) := by
  funext c
  unfold Function.update
  split
  · next h => subst h; rfl
  · rfl

theorem column_flush (m : Memory) (line : Fin 32 → UInt8) (b : Block) (j : Fin 32) :
    (column m line (some b) j).flush = fun c => Function.update m b line c j :=
  (update_column m b line j).symm

theorem wantBlock_fetch {i : Nat} {cur : Option Block} (h : Holds m line ahead s) (p : Param)
    (hc : Cached i cur s) :
    Meets (wantBlock memoryBus g i p) s fun r s' => r = some () ∧ Same s s' ∧ ∃ m' line',
      Holds m' line' ahead s' ∧ ∀ j, column m' line' (some p.block) j
        = (column m line cur j).fetch p.block := by
  have hcond : (i = 0 ∨ p.blkId ≠ s.blkIdPrev) ↔ cur ≠ some p.block := by
    cases cur with
    | none => exact ⟨fun _ => nofun, fun _ => .inl (hc.1.mpr rfl)⟩
    | some b =>
      have hi : i ≠ 0 := fun h0 => nomatch hc.1.mp h0
      rw [hc.2 b rfl, p.blkId_eq]
      constructor
      · rintro (h0 | hne) e
        · exact hi h0
        · exact hne (by rw [Option.some.inj e])
      · exact fun hne => .inr fun e => hne (by rw [blkIdOf_inj e])
  unfold wantBlock
  refine Meets.get ?_
  by_cases hw : cur = some p.block
  · rw [if_neg fun h => hcond.mp h hw]
    refine Meets.pure ⟨rfl, ⟨rfl, rfl, rfl⟩, m, line, h, fun j => ?_⟩
    unfold OneLine.State.fetch
    rw [if_pos (show (column m line cur j).cur = some p.block from hw), hw]
  rw [if_pos (hcond.mpr hw)]
  refine Meets.update (Meets.update (Meets.get ?_))
  -- the dirty block, if there is one, is in the memory by now
  obtain ⟨m', hm, h', hs⟩ : ∃ m', (∀ j, (fun b => m' b j) = (column m line cur j).flush)
      ∧ Holds m' line ahead (if i = 0 then s else s.writePrev memoryBus g)
      ∧ Same s (if i = 0 then s else s.writePrev memoryBus g) := by
    cases cur with
    | none =>
      rw [if_pos (hc.1.mpr rfl)]
      exact ⟨m, fun j => rfl, h, rfl, rfl, rfl⟩
    | some b =>
      rw [if_neg fun h0 => nomatch hc.1.mp h0]
      obtain ⟨h1, h2⟩ := h.writePrev (g := g) (hc.2 b rfl)
      exact ⟨_, fun j => (column_flush m line b j).symm, h1, h2⟩
  obtain ⟨h2, hs2⟩ := h'.readDm (g := g) p.block
  rw [if_neg (by rw [h'.err]; decide)]
  refine Meets.check (fun he => ?_) fun _ => ⟨rfl, ?_, m', m' p.block, h2, fun j => ?_⟩
  · have h0 := h2.err
    change (!_) = false at he
    rw [show (Work.readDm memoryBus g p.subclass p.blkInd 0 _).err = false from h0] at he
    cases he
  · exact ⟨hs2.1.trans hs.1, hs2.2.1.trans hs.2.1, hs2.2.2.trans hs.2.2⟩
  · have hw' : (column m line cur j).cur ≠ some p.block := hw
    unfold OneLine.State.fetch
    rw [if_neg hw', ← hm]
    rfl

/-- the blocks of a parameter: the one behind is as the memory holds it before anything is written -/
theorem readParam_fetch {i : Nat} {cur : Option Block} (h : Holds m line ahead s) (p : Param)
    (hc : Cached i cur s) (hlim : checkLimits p = true) :
    Meets (readParam memoryBus g i p) s fun r s' => r = some () ∧ s'.subclass = p.subclass
      ∧ s'.blkInd = p.blkInd ∧ ∃ m' line' ahead', Holds m' line' ahead' s'
        ∧ (p.twoblocks = true → ahead' = m p.next)
        ∧ ∀ j, column m' line' (some p.block) j = (column m line cur j).fetch p.block := by
  unfold readParam
  refine Meets.guard (fun he => by rw [hlim] at he; cases he) fun _ => Meets.update (Meets.update ?_)
  set s₁ : Work Device := { s with subclass := p.subclass, blkInd := p.blkInd }
  have h₁ : Holds m line ahead s₁ := ⟨h.length, h.err, h.mem, h.line, h.ahead⟩
  obtain ⟨ahead₂, h₂, hs₂, ha₂⟩ : ∃ ahead₂,
      Holds m line ahead₂ (if p.twoblocks then s₁.readAhead memoryBus g p else s₁)
      ∧ Same s₁ (if p.twoblocks then s₁.readAhead memoryBus g p else s₁)
      ∧ (p.twoblocks = true → ahead₂ = m p.next) := by
    by_cases ht : p.twoblocks = true
    · rw [if_pos ht]
      obtain ⟨hr, hs⟩ := h₁.readAhead (g := g) p
      exact ⟨_, hr, hs, fun _ => rfl⟩
    · rw [if_neg ht]
      exact ⟨ahead, h₁, ⟨rfl, rfl, rfl⟩, fun h => absurd h ht⟩
  have hc₂ : Cached i cur (if p.twoblocks then s₁.readAhead memoryBus g p else s₁) :=
    ⟨hc.1, fun b hb => hs₂.2.2.trans (hc.2 b hb)⟩
  obtain ⟨r, s₃, hw, hr, hs₃, m₃, line₃, h₃, hf⟩ := wantBlock_fetch h₂ p hc₂
  exact ⟨r, s₃, hw, hr, hs₃.1.trans hs₂.1, hs₃.2.1.trans hs₂.2.1, m₃, line₃, ahead₂, h₃, ha₂, hf⟩

/-- **One parameter is one request**, in every column. -/
theorem writeParam_step {host : ByteOrder} {i : Nat} {cur : Option Block} (h : Holds m line ahead s)
    (p : Param) (hc : Cached i cur s) {d : List UInt8} (hlim : checkLimits p = true)
    (hd : p.encode host g = some d) :
    Meets (writeParam memoryBus host g i p) s fun r s' => r = some () ∧ s'.subclass = p.subclass
      ∧ s'.blkInd = p.blkInd ∧ ∃ m' line' ahead' cur', Holds m' line' ahead' s'
        ∧ Cached (i + 1) cur' s'
        ∧ ∀ j, column m' line' cur' j = OneLine.step (column m line cur j) (p.put d j) := by
  have hlen : d.length ≤ 32 := by
    have hl := p.len_le
    rw [encode_length hd]
    unfold Layout.size
    split <;> omega
  unfold writeParam
  refine Meets.bind (readParam_fetch h p hc hlim) (fun s' hk => nomatch hk.1) ?_
  rintro a s₃ ⟨-, hsub, hind, m₃, line₃, ahead₂, h₃, ha₂, hf⟩
  refine Meets.access hd (Meets.update (Meets.done ?_))
  have h₄ := h₃.store p hlen p.blkId
  set s₄ : Work Device := { s₃ with buf := poke s₃.buf (p.pos + 1) d, blkIdPrev := p.blkId }
  have hmem : ∀ (j : Fin 32), ((column m line cur j).fetch p.block).mem = fun b => m₃ b j := by
    intro j
    rw [← hf j]
    rfl
  have hline : ∀ j, ((column m line cur j).fetch p.block).line = line₃ j := by
    intro j
    rw [← hf j]
    rfl
  by_cases ht : p.twoblocks = true
  · rw [if_pos ht]
    unfold Work.nextBlock
    obtain ⟨h₅, hs₅⟩ := h₄.writePrev (g := g) (b := p.block) rfl
    have h₆ := h₅.shift ((s₄.writePrev memoryBus g).blkIdPrev + 1)
    have hid : (s₄.writePrev memoryBus g).blkIdPrev + 1 = blkIdOf p.next := by
      have hi := p.blkInd_lt
      rw [hs₅.2.2]
      exact blkIdOf_succ (b := p.block) (by show p.blkInd.toNat < 255; omega)
    refine ⟨rfl, hs₅.1.trans hsub, hs₅.2.1.trans hind, _, _, _, some p.next, h₆,
      ⟨by simp, fun b hb => ?_⟩, fun j => ?_⟩
    · rw [← Option.some.inj hb]
      exact hid
    · have hl : (p.put d j).long = true := ht
      unfold OneLine.step
      rw [if_pos hl, ha₂ ht]
      change _ = OneLine.State.mk (Function.update ((column m line cur j).fetch p.block).mem p.block
        ((p.put d j).lo.getD ((column m line cur j).fetch p.block).line)) _ _
      rw [hmem, hline, ← update_column m₃ p.block (fun j => (p.put d j).lo.getD (line₃ j))]
      rfl
  · rw [if_neg ht]
    refine ⟨rfl, hsub, hind, _, _, _, some p.block, h₄, ⟨by simp, fun b hb => ?_⟩, fun j => ?_⟩
    · rw [← Option.some.inj hb]
      rfl
    · have hl : ¬ (p.put d j).long = true := ht
      unfold OneLine.step
      rw [if_neg hl]
      change _ = OneLine.State.mk ((column m line cur j).fetch p.block).mem
        ((p.put d j).lo.getD ((column m line cur j).fetch p.block).line) _
      rw [hmem, hline]
      rfl

/-! ## The loop -/

/-- the bytes of a parameter, where they are stored without an overrun -/
def Param.data (host : ByteOrder) (g : Gauge) (p : Param) : List UInt8 := (p.encode host g).getD []

/-- the requests of a list of parameters in column `j` -/
def puts (host : ByteOrder) (g : Gauge) (j : Fin 32) (ps : List Param) :
    List (OneLine.Put Block UInt8) := ps.map fun p => p.put (p.data host g) j

/-- the block of the last parameter -/
def lastBlock (b : Block) (ps : List Param) : Block := ps.foldl (fun _ p => p.block) b

/-- the loop reaches the parameters behind `done`, which are inside their limits and stored -/
theorem writeLoop_reach {host : ByteOrder} (rest : List Param) (done : List Param) :
    ∀ {i : Nat} {cur : Option Block} {m : Memory} {line ahead : Fin 32 → UInt8} {s : Work Device},
    Holds m line ahead s → Cached i cur s →
    (∀ p ∈ done, checkLimits p = true ∧ p.encode host g ≠ none) →
    ∃ s' m' line' ahead' cur',
      writeLoop memoryBus host g i (done ++ rest) s
        = writeLoop memoryBus host g (i + done.length) rest s'
      ∧ Holds m' line' ahead' s' ∧ Cached (i + done.length) cur' s'
      ∧ (s'.subclass, s'.blkInd) = lastBlock (s.subclass, s.blkInd) done
      ∧ ∀ j, column m' line' cur' j = OneLine.run (column m line cur j) (puts host g j done) := by
  induction done with
  | nil =>
    intro i cur m line ahead s h hc _
    exact ⟨s, m, line, ahead, cur, rfl, h, hc, rfl, fun j => rfl⟩
  | cons p ps ih =>
    intro i cur m line ahead s h hc hdone
    obtain ⟨hlim, henc⟩ := hdone p List.mem_cons_self
    obtain ⟨d, hd⟩ := Option.ne_none_iff_exists'.mp henc
    obtain ⟨r, s₁, hw, rfl, hsub, hind, m₁, line₁, ahead₁, cur₁, h₁, hc₁, hstep⟩ :=
      writeParam_step h p hc hlim hd
    obtain ⟨s', m', line', ahead', cur', e, h', hc', hlast, hcol⟩ :=
      ih h₁ hc₁ fun q hq => hdone q (List.mem_cons_of_mem _ hq)
    have hnext : writeLoop memoryBus host g i ((p :: ps) ++ rest) s
        = writeLoop memoryBus host g (i + 1) (ps ++ rest) s₁ := by
      show (Exits.get >>= _) s = _
      rw [bind_of_some rfl, if_neg (by rw [h.err]; decide), bind_of_some hw]
      rfl
    have hi : i + (p :: ps).length = i + 1 + ps.length := by
      rw [List.length_cons]
      omega
    have hdata : p.data host g = d := by
      unfold Param.data
      rw [hd]
      rfl
    refine ⟨s', m', line', ahead', cur', hi ▸ hnext.trans e, h', hi ▸ hc', ?_, fun j => ?_⟩
    · rw [hlast, hsub, hind]
      rfl
    · rw [hcol j, hstep j, ← hdata]
      rfl

end

/-! ## The whole function -/

section
variable (host : ByteOrder) (g : Gauge) (stack : Vector UInt8 65) (dev : Device)

/-- column `j` before the first parameter; the line is what was on the stack -/
def startColumn (j : Fin 32) : OneLine.State Block UInt8 :=
  column dev.mem (fun i => stack.toList.getD (1 + i) 0) none j

theorem start_holds : Holds dev.mem (fun i => stack.toList.getD (1 + i) 0)
    (fun i => stack.toList.getD (33 + i) 0) ⟨dev, stack.toList, 0, 0, 0, false⟩ :=
  ⟨stack.length_toList, rfl, rfl, fun i => rfl, fun i => rfl⟩

theorem start_cached : Cached 0 none ⟨dev, stack.toList, 0, 0, 0, false⟩ :=
  ⟨by simp, fun b hb => nomatch hb⟩

/-- every parameter is inside its limits: the last write is to the last parameter's block -/
theorem writeParamsBlock_all {ps : List Param}
    (h : ∀ p ∈ ps, checkLimits p = true ∧ p.encode host g ≠ none) :
    ∃ dev', writeParamsBlock memoryBus host g stack ps dev = some (true, dev')
      ∧ ∀ j, (fun b => dev'.mem b j)
        = Function.update (OneLine.run (startColumn stack dev j) (puts host g j ps)).mem
          (lastBlock (0, 0) ps) (OneLine.run (startColumn stack dev j) (puts host g j ps)).line := by
  obtain ⟨s', m', line', ahead', cur', e, h', hc', hlast, hcol⟩ :=
    writeLoop_reach [] ps (start_holds stack dev) (start_cached stack dev) h
  obtain ⟨h₂, _⟩ := h'.writeDm (g := g) (s'.subclass, s'.blkInd)
  rw [List.append_nil] at e
  refine ⟨(s'.writeDm memoryBus g s'.subclass s'.blkInd).dev, ?_, fun j => ?_⟩
  · unfold writeParamsBlock
    rw [e]
    show some (!(s'.writeDm memoryBus g s'.subclass s'.blkInd).err, _) = _
    rw [h₂.err]
    rfl
  · rw [h₂.mem, hlast]
    have hj := hcol j
    unfold startColumn
    rw [← hj]
    exact update_column m' _ line' j

/-- a parameter outside its limits ends the loop, and nothing is written behind it -/
theorem writeParamsBlock_stopped {done : List Param} {q : Param} (rest : List Param)
    (h : ∀ p ∈ done, checkLimits p = true ∧ p.encode host g ≠ none) (hq : checkLimits q = false) :
    ∃ dev', writeParamsBlock memoryBus host g stack (done ++ q :: rest) dev = some (true, dev')
      ∧ ∀ j, (fun b => dev'.mem b j)
        = (OneLine.run (startColumn stack dev j) (puts host g j done)).mem := by
  obtain ⟨s', m', line', ahead', cur', e, h', hc', hlast, hcol⟩ :=
    writeLoop_reach (q :: rest) done (start_holds stack dev) (start_cached stack dev) h
  have hend : writeLoop memoryBus host g (0 + done.length) (q :: rest) s' = some (none, s') := by
    unfold writeLoop
    rw [bind_of_some rfl, if_neg (by rw [h'.err]; decide)]
    unfold writeParam readParam
    rw [hq]
    rfl
  refine ⟨s'.dev, ?_, fun j => ?_⟩
  · unfold writeParamsBlock
    rw [e, hend]
    show some (!s'.err, s'.dev) = _
    rw [h'.err]
    rfl
  · have hj := hcol j
    unfold startColumn
    rw [← hj, h'.mem]
    rfl

/-- a float on a big-endian host that is said to be longer than four bytes -/
theorem writeParamsBlock_overrun {done : List Param} {q : Param} (rest : List Param)
    (h : ∀ p ∈ done, checkLimits p = true ∧ p.encode host g ≠ none) (hq : checkLimits q = true)
    (he : q.encode host g = none) :
    writeParamsBlock memoryBus host g stack (done ++ q :: rest) dev = none := by
  obtain ⟨s', m', line', ahead', cur', e, h', hc', hlast, hcol⟩ :=
    writeLoop_reach (q :: rest) done (start_holds stack dev) (start_cached stack dev) h
  obtain ⟨r, s₁, hr, rfl, _⟩ := readParam_fetch (g := g) h' q hc' hq
  have hw : writeParam memoryBus host g (0 + done.length) q s' = none := by
    unfold writeParam
    rw [bind_of_some hr, he]
    rfl
  have hend : writeLoop memoryBus host g (0 + done.length) (q :: rest) s' = none := by
    unfold writeLoop
    rw [bind_of_some rfl, if_neg (by rw [h'.err]; decide)]
    show Exit.bind _ _ _ = _
    unfold Exit.bind
    rw [hw]
  unfold writeParamsBlock
  rw [e, hend]
  rfl

end

end Bqtool
