import Firmware.Lib.Bytes
import Firmware.Lib.Crc
import Firmware.Lib.Cstr

/-!
# buffalo-enc

The stream cipher of Buffalo images, and the encryption and decryption of a buffer.

* `bcryptInit`, `Ctx.next`   the key schedule and the key stream;
* `bcryptProcess`            the loop over the buffer, byte by byte: source and destination may
                             overlap;
* `encryptBuf`, `decryptBuf` the image in memory.

`malloc` says which allocations succeed.
-/

set_option linter.unusedVariables false

namespace Buffalo
open Img Word

def encProductLen : Nat := 32
def encVersionLen : Nat := 8
def encMagicLen : Nat := 6
def bcryptDefaultStateLen : Nat := 256
def bcryptMaxKeylen : Nat := 254

/-- how a function ends early: `-1`, or an access outside a buffer -/
inductive Halt where
  | out
  | ub

def goto (ok : Bool) : Except Halt Unit := if ok then .ok () else .error .out

def safe {α : Type} : Option α → Except Halt α
  | none => .error .ub
  | some a => .ok a

/-! ## the cipher -/

/-- `struct bcrypt_ctx`; `i` and `j` are used as `unsigned char` -/
structure Ctx where
  i : Nat
  j : Nat
  state : List UInt8

def initStep (key : List UInt8) (s : List UInt8 × Nat × Nat) (i : Nat) : List UInt8 × Nat × Nat :=
  let (state, j, k) := s
  let t := state.getD i 0
  let k := (k + (key.getD j 0).toNat + t.toNat) % state.length
  ((state.set i (state.getD k 0)).set k t, (j + 1) % key.length, k)

def bcryptInit (key : List UInt8) (stateLen : Nat) : Ctx :=
  let state := (List.range stateLen).map UInt8.ofNat
  ⟨0, 0, ((List.range stateLen).foldl (initStep key) (state, 0, 0)).1⟩

/-- one turn of the loop of `bcrypt_process`: the byte of the key stream -/
def Ctx.next (c : Ctx) : Ctx × UInt8 :=
  let n := c.state.length
  let i := (c.i + 1) % n % 256
  let j := (c.j + (c.state.getD i 0).toNat) % n % 256
  let t := c.state.getD j 0
  let state := (c.state.set j (c.state.getD i 0)).set i t
  (⟨i, j, state⟩, state.getD (((state.getD i 0).toNat + (state.getD j 0).toNat) % n) 0)

/-- `none` is an access outside `mem` -/
def bcryptProcess : Nat → Ctx → List UInt8 → Nat → Nat → Option (List UInt8)
  | 0, _, mem, _, _ => some mem
  | len + 1, c, mem, src, dst =>
    mem[src]?.bind fun b => (store mem dst [b ^^^ c.next.2]).bind fun mem =>
      bcryptProcess len c.next.1 mem (src + 1) (dst + 1)

/-- `src` and `dst` in one memory -/
def bcryptBuf (malloc : Nat → Bool) (seed : UInt8) (key : CStr) (mem : List UInt8)
    (src dst len : Nat) (longstate : Bool) : Except Halt (List UInt8) := do
  let stateLen := if longstate then len else bcryptDefaultStateLen
  safe (if key.length > bcryptMaxKeylen then none else some ())
  goto (malloc stateLen)
  safe (bcryptProcess len (bcryptInit (seed :: key.bytes) stateLen) mem src dst)

/-! ## images -/

/-- a `signed char` -/
def signExtend (b : UInt8) : UInt32 := if b < 128 then b.toUInt32 else b.toUInt32 ||| 0xffffff00

def csumStep (csum : UInt32) (b : UInt8) : UInt32 :=
  (Crc.bit 0xedb88320)^[8] (csum ^^^ signExtend b)

def buffaloCsum (csum : UInt32) (buf : List UInt8) : UInt32 := buf.foldl csumStep csum

def encComputeHeaderLen (product version : CStr) : Nat :=
  encMagicLen + 1 + product.length + 1 + version.length + 1 + 3 * 4

structure EncParam where
  key : CStr
  magic : List UInt8
  product : List UInt8
  version : List UInt8
  seed : UInt8
  longstate : Bool
  datalen : UInt32
  csum : UInt32

/-- the length, the string and its NUL at `p`, encrypted: the memory, the first byte and the end -/
def putField (malloc : Nat → Bool) (ep : EncParam) (seed : UInt8) (mem : List UInt8) (p : Nat)
    (s : CStr) : Except Halt (List UInt8 × UInt8 × Nat) := do
  let len := s.length + 1
  let mem ← safe (store mem p (put32 true (UInt32.ofNat len)))
  let p := p + 4
  let mem ← safe (store mem p (s.bytes ++ [0]))
  let mem ← bcryptBuf malloc seed ep.key mem p p len ep.longstate
  let first ← safe mem[p]?
  .ok (mem, first, p + len)

def encryptBuf (malloc : Nat → Bool) (ep : EncParam) (mem : List UInt8) (hdr data : Nat) :
    Except Halt (List UInt8) := do
  let magic ← safe (CStr.cstr ep.magic)
  let mem ← safe (store mem hdr (magic.bytes ++ [0]))
  let p := hdr + (magic.length + 1)
  let mem ← safe (store mem p [ep.seed])
  let p := p + 1
  let product ← safe (CStr.cstr ep.product)
  let (mem, s, p) ← putField malloc ep ep.seed mem p product
  let version ← safe (CStr.cstr ep.version)
  let (mem, s, p) ← putField malloc ep s mem p version
  let mem ← safe (store mem p (put32 true ep.datalen))
  let mem ← bcryptBuf malloc s ep.key mem data data ep.datalen.toNat ep.longstate
  safe (store mem (data + ep.datalen.toNat) (put32 true ep.csum))

/-- `p` and `remain` -/
structure Cur where
  p : Nat
  remain : Nat

/-- `CHECKLEN`, the bytes, `INCP` -/
def Cur.take (c : Cur) (mem : List UInt8) (len : Nat) : Except Halt (List UInt8 × Cur) := do
  goto (len ≤ c.remain)
  let bytes ← safe (load mem c.p len)
  .ok (bytes, ⟨c.p + len, c.remain - len⟩)

def checkMagic (m : List UInt8) : Bool :=
  m = CStr.ascii ['s', 't', 'a', 'r', 't'] ++ [0] || m = CStr.ascii ['a', 's', 'a', 'r', '1'] ++ [0]

def decryptBuf (malloc : Nat → Bool) (ep : EncParam) (mem : List UInt8) (data datalen : Nat) :
    Except Halt (EncParam × List UInt8) := do
  let (magic, c) ← Cur.take ⟨data, datalen⟩ mem encMagicLen
  goto (checkMagic magic)
  let (seed, c) ← c.take mem 1
  let (w, c) ← c.take mem 4
  let prodLen := (get32 true w).toNat
  goto (prodLen ≤ encProductLen)
  let (p, c) ← c.take mem prodLen
  let product ← safe (store ep.product 0 p)
  let (w, c) ← c.take mem 4
  let verLen := (get32 true w).toNat
  goto (verLen ≤ encVersionLen)
  let (v, c) ← c.take mem verLen
  let version ← safe (store ep.version 0 v)
  let (w, c) ← c.take mem 4
  let len := get32 true w
  goto (len.toNat ≤ c.remain)
  let mem ← bcryptBuf malloc (version.getD 0 0) ep.key mem c.p data len.toNat ep.longstate
  let c : Cur := ⟨c.p + len.toNat, c.remain - len.toNat⟩
  let (w, _) ← c.take mem 4
  let csum := get32 true w
  goto (buffaloCsum len (slice mem data len.toNat) = csum)
  let version ← bcryptBuf malloc (product.getD 0 0) ep.key version 0 0 verLen ep.longstate
  let product ← bcryptBuf malloc (seed.getD 0 0) ep.key product 0 0 prodLen ep.longstate
  .ok (⟨ep.key, magic, product, version, seed.getD 0 0, ep.longstate, len, csum⟩, mem)

end Buffalo
