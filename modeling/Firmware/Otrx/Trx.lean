import Firmware.Lib.Crc

/-!
# otrx

`otrx create` appends files and zeros behind a header, `otrx check` and `otrx extract` read the
header back.  The host is little-endian with a 64-bit `size_t`.

* `step`, `create`     the options of `otrx create`, one after the other, and the header;
* `check`              `otrx check`, which reads the file in pieces of 1024 bytes;
* `extract`            what `otrx extract` writes for a partition.

`malloc` says which allocations succeed; files can be opened, read and written.
-/

set_option linter.unusedVariables false

namespace Otrx
open Img Word

def trxMagic : UInt32 := 0x30524448
def trxFlagsOffset : Nat := 12
def trxMaxParts : Nat := 3

/-- `struct trx_header`; `flags` is 0 and `version` is 1 -/
structure Header where
  magic : UInt32
  length : UInt32
  crc32 : UInt32
  offset : List UInt32

def headerLen : Nat := 28

def Header.bytes (h : Header) : List UInt8 :=
  put32 false h.magic ++ (put32 false h.length ++ (put32 false h.crc32 ++
    (put16 false 0 ++ (put16 false 1 ++ h.offset.flatMap (put32 false)))))

def readHeader (file : List UInt8) : Option Header := do
  let magic ← load32 false file 0
  let length ← load32 false file 4
  let crc32 ← load32 false file 8
  let o0 ← load32 false file 16
  let o1 ← load32 false file 20
  let o2 ← load32 false file 24
  some ⟨magic, length, crc32, [o0, o1, o2]⟩

def otrxCrc32 (buf : List UInt8) : UInt32 := Crc.block Crc.table32 0xffffffff buf

/-! ## create -/

inductive Opt where
  | f (content : List UInt8)
  | b (n : Int)

/-- the file behind the header, and the variables of `otrx_create` -/
structure St where
  body : List UInt8
  currIdx : Nat
  currOffset : Nat
  offset : List UInt32

def st0 : St := ⟨[], 0, headerLen, [0, 0, 0]⟩

/-- `size_t` -/
def size (n : Nat) : Nat := n % 18446744073709551616

/-- a `size_t` difference read as `ssize_t` -/
def ssize (i : Int) : Int :=
  (i + 9223372036854775808) % 18446744073709551616 - 9223372036854775808

/-- zeros are written and counted, unless there is no memory for them -/
def appendZeros (malloc : Nat → Bool) (length : Nat) (s : St) : St :=
  if malloc length then
    { s with body := s.body ++ List.replicate length 0, currOffset := size (s.currOffset + length) }
  else s

def align (malloc : Nat → Bool) (s : St) : St :=
  if s.currOffset % 4 = 0 then s else appendZeros malloc (4 - s.currOffset % 4) s

/-- one option; `none` is the exit for too many partitions -/
def step (malloc : Nat → Bool) (s : St) : Opt → Option St
  | .f content =>
    if s.currIdx ≥ trxMaxParts then none
    else some (align malloc { s with
      body := s.body ++ content
      offset := s.offset.set s.currIdx (UInt32.ofNat s.currOffset)
      currIdx := s.currIdx + 1
      currOffset := size (s.currOffset + content.length) })
  | .b n =>
    let sbytes := ssize (n - s.currOffset)
    some (if sbytes < 0 then s else appendZeros malloc sbytes.toNat s)

def run (malloc : Nat → Bool) (s : St) : List Opt → Option St
  | [] => some s
  | o :: os => (step malloc s o).bind fun s => run malloc s os

/-- the file after `otrx_create_write_hdr`; `none` is a read outside its buffer -/
def writeHdr (malloc : Nat → Bool) (s : St) : Option (List UInt8) :=
  let hdr : Header := ⟨trxMagic, UInt32.ofNat s.currOffset, 0, s.offset⟩
  let file := hdr.bytes ++ s.body
  let length := hdr.length.toNat
  if malloc length = false then some file
  else if file.length < length then some file
  else if length < trxFlagsOffset then none
  else
    let crc := otrxCrc32 (slice file trxFlagsOffset (length - trxFlagsOffset))
    some ({ hdr with crc32 := crc }.bytes ++ s.body)

def create (malloc : Nat → Bool) (opts : List Opt) : Option (List UInt8) :=
  (run malloc st0 opts).bind (writeHdr malloc)

/-! ## check -/

/-- the read loop: what is left of `length`, and the register -/
def crcLoop : Nat → List UInt8 → Nat → UInt32 → Nat × UInt32
  | 0, _, length, crc => (length, crc)
  | fuel + 1, rest, length, crc =>
    let buf := rest.take (min 1024 length)
    if buf.length = 0 then (length, crc)
    else crcLoop fuel (rest.drop buf.length) (length - buf.length) (Crc.block Crc.table32 crc buf)

/-- `0`, `-EIO` or `-EINVAL` -/
def check (file : List UInt8) : Int :=
  match readHeader file with
  | none => -5
  | some hdr =>
    if hdr.magic ≠ trxMagic then -22
    else if hdr.length.toNat < headerLen then -22
    else
      let (left, crc) := crcLoop (hdr.length.toNat + 1) (file.drop trxFlagsOffset)
        (hdr.length.toNat - trxFlagsOffset) 0xffffffff
      if left ≠ 0 then -5
      else if crc ≠ hdr.crc32 then -22
      else 0

/-- `-o offset`: both positions that are sought count from there -/
def checkAt (offset : Nat) (file : List UInt8) : Int := check (file.drop offset)

/-! ## extract -/

/-- the output file of `otrx_extract_copy` -/
def extractCopy (malloc : Nat → Bool) (file : List UInt8) (offset length : Nat) : List UInt8 :=
  if malloc length then (load file offset length).getD [] else []

/-- partition `i`; `none` if there is none -/
def extract (malloc : Nat → Bool) (file : List UInt8) (i : Nat) : Option (List UInt8) := do
  let hdr ← readHeader file
  if hdr.magic ≠ trxMagic then none
  else if hdr.offset.getD i 0 = 0 then none
  else
    let length :=
      if trxMaxParts ≤ i + 1 ∨ hdr.offset.getD (i + 1) 0 = 0 then hdr.length - hdr.offset.getD i 0
      else hdr.offset.getD (i + 1) 0 - hdr.offset.getD i 0
    some (extractCopy malloc file (hdr.offset.getD i 0).toNat length.toNat)

end Otrx
