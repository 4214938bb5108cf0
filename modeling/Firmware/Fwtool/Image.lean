import Firmware.Lib.Crc

/-!
# fwtool: appending and extracting chunks

A firmware image may end in chunks: a payload and a 16-byte trailer with a magic, the CRC of
everything in front of it, the type and the size.

* `addData`       `add_data`: append metadata (`-I`) or a signature (`-S`);
* `extractTail`   `extract_tail` with `remove_tail`: take bytes from the end of the two buffers;
* `extractData`   `extract_data`: read the file through two buffers, then walk back over the
                  chunks.

`none` is undefined behaviour: an access outside a buffer or through NULL, or an overflow of
`file_len`.  Allocations succeed; what they contain is a parameter (`Heap`).
-/

set_option linter.unusedVariables false

namespace Fwtool
open Img Word CInt Blocks

/-! ## constants and formats -/

def metadataMaxlen : Nat := 30 * 1024
def signatureMaxlen : Nat := 1 * 1024
def bufLen : Nat := 30 * 1024 + 1 * 1024 + 1024

def fwimageMagic : UInt32 := 0x46577830
def fwimageSignature : UInt8 := 0
def fwimageInfo : UInt8 := 1

def crcTable : List UInt32 := Crc.filltable 0xedb88320

def crc32Block (val : UInt32) (l : List UInt8) : UInt32 := Crc.block crcTable val l

/-- `struct fwimage_trailer` -/
structure Trailer where
  magic : UInt32
  crc32 : UInt32
  type : UInt8
  pad : List UInt8
  size : UInt32

/-- the trailer in the file: its words are big endian -/
def Trailer.bytes (tr : Trailer) : List UInt8 :=
  put32 true tr.magic ++ (put32 true tr.crc32 ++ ([tr.type] ++ (tr.pad ++ put32 true tr.size)))

def trailerLen : Nat := 16
def hdrLen : Nat := 8

/-- the trailer in the 16 bytes `l` -/
def Trailer.ofBytes (l : List UInt8) : Trailer where
  magic := get32 true (slice l 0 4)
  crc32 := get32 true (slice l 4 4)
  type := l.getD 8 0
  pad := slice l 9 3
  size := get32 true (slice l 12 4)

/-- `struct fwimage_header`: version and flags -/
def emptyHdr : List UInt8 := List.replicate hdrLen 0

/-- which file the options name: `-I`/`-i` or `-S`/`-s` -/
inductive Kind where
  | metadata
  | signature
deriving DecidableEq

/-! ## appending -/

def trailerUpdateCrc (tr : Trailer) (buf : List UInt8) : Trailer :=
  { tr with crc32 := crc32Block tr.crc32 buf }

/-- the loop over the blocks of the input file -/
def appendData : List (List UInt8) → List UInt8 → Trailer → Int → Int × List UInt8 × Trailer
  | [], out, tr, _ => (0, out, tr)
  | buf :: bufs, out, tr, maxlen =>
    let maxlen := maxlen - buf.length
    if maxlen < 0 then (1, out, tr)
    else
      let tr := { tr with size := tr.size + UInt32.ofNat buf.length }
      appendData bufs (out ++ buf) (trailerUpdateCrc tr buf) maxlen

def addMetadata (file : List UInt8) (tr : Trailer) (data : List UInt8) : Int × List UInt8 :=
  let tr := { tr with type := fwimageInfo, size := UInt32.ofNat (hdrLen + trailerLen) }
  let tr := trailerUpdateCrc tr emptyHdr
  let (r, file, tr) := appendData (blocks 512 data) (file ++ emptyHdr) tr metadataMaxlen
  if r ≠ 0 then (1, file) else (0, file ++ tr.bytes)

def addSignature (file : List UInt8) (tr : Trailer) (data : List UInt8) : Int × List UInt8 :=
  let tr := { tr with type := fwimageSignature, size := UInt32.ofNat trailerLen }
  let (r, file, tr) := appendData (blocks 512 data) file tr signatureMaxlen
  if r ≠ 0 then (1, file) else (0, file ++ tr.bytes)

/-- the first loop of `add_data`: length and CRC of the file -/
def readFirmware : List (List UInt8) → Int → Trailer → Option (Int × Trailer)
  | [], fileLen, tr => some (fileLen, tr)
  | buf :: bufs, fileLen, tr => do
    let fileLen ← intAdd fileLen buf.length
    readFirmware bufs fileLen (trailerUpdateCrc tr buf)

/-- the choice between the two in `add_data` -/
def addChunk (kind : Kind) (file : List UInt8) (tr : Trailer) (data : List UInt8) :
    Int × List UInt8 :=
  match kind with
  | .metadata => addMetadata file tr data
  | .signature => addSignature file tr data

/-- `tr` as `add_data` initialises it -/
def startTrailer : Trailer := ⟨fwimageMagic, 0xffffffff, 0, [0, 0, 0], 0⟩

/-- the return value and the new content of the file -/
def addData (file : List UInt8) (kind : Kind) (data : List UInt8) : Option (Int × List UInt8) := do
  let (fileLen, tr) ← readFirmware (blocks 512 file) 0 startTrailer
  let (ret, new) := addChunk kind file tr data
  if ret ≠ 0 then some (ret, new.take fileLen.toNat) else some (ret, new)

/-! ## the two buffers -/

/-- a block of `BUFLEN` bytes -/
abbrev Buf := { l : List UInt8 // l.length = bufLen }

structure DataBuf where
  cur : Option Buf
  prev : Option Buf
  curLen : Int
  fileLen : Int

/-- the contents of fresh allocations: the output buffer, the blocks and the trailer variable -/
structure Heap where
  buf : Buf
  blk : Nat → Buf
  tr : { l : List UInt8 // l.length = trailerLen }

/-- `memcpy(dest + off, src + soff, n)`; nothing is touched when `n` is 0 -/
def memcpy (dest : List UInt8) (off : Int) (src : Option Buf) (soff n : Int) :
    Option (List UInt8) :=
  if n = 0 then some dest
  else if n < 0 ∨ off < 0 ∨ soff < 0 then none
  else do
    let src ← src
    let d ← load src.1 soff.toNat n.toNat
    store dest off.toNat d

def removeTail (d : DataBuf) (len : Int) : DataBuf :=
  let curLen := d.curLen - len
  let fileLen := d.fileLen - len
  if curLen ≠ 0 then { d with curLen := curLen, fileLen := fileLen }
  else ⟨d.prev, none, bufLen, fileLen⟩

def extractTail (d : DataBuf) (dest : List UInt8) (len : Int) :
    Option (Int × DataBuf × List UInt8) :=
  if d.cur.isNone then some (1, d, dest)
  else do
    let curLen := if d.curLen ≥ len then len else d.curLen
    let dest ← memcpy dest (len - curLen) d.cur (d.curLen - curLen) curLen
    let d := removeTail d curLen
    let curLen := len - curLen
    if curLen ≠ 0 ∧ d.cur.isNone then some (1, d, dest)
    else
      let dest ← memcpy dest 0 d.cur (d.curLen - curLen) curLen
      some (0, removeTail d curLen, dest)

/-- the CRC of what the buffers hold; `cur` is read without a check for NULL -/
def tailCrc32 (d : DataBuf) (crc : UInt32) : Option UInt32 := do
  let crc := match d.prev with
    | some p => crc32Block crc p.1
    | none => crc
  let cur ← d.cur
  some (crc32Block crc (cur.1.take d.curLen.toNat))

/-- `hdr->version != 0` -/
def validateMetadata (hdr : List UInt8) : Int := if hdr.take 4 ≠ [0, 0, 0, 0] then 1 else 0

/-! ## extracting -/

/-- `fread` into a block -/
def Buf.read (b : Buf) (data : List UInt8) (h : data.length ≤ bufLen) : Buf :=
  ⟨data ++ b.1.drop data.length, by rw [List.length_append, List.length_drop, b.2]; omega⟩

/-- the `do`-`while` loop: older blocks go into the CRC -/
def readLoop (heap : Heap) : Nat → List UInt8 → UInt32 → DataBuf → Option (UInt32 × DataBuf)
  | 0, _, _, _ => none
  | fuel + 1, f, crc, d => do
    let (crc, cur) := match d.prev with
      | some c => (crc32Block crc c.1, c)
      | none => (crc, heap.blk fuel)
    let fileLen ← intAdd d.fileLen (f.take bufLen).length
    let d : DataBuf := ⟨some (cur.read (f.take bufLen) (List.length_take_le _ _)), d.cur,
      (f.take bufLen).length, fileLen⟩
    if (f.take bufLen).length = bufLen then readLoop heap fuel (f.drop bufLen) crc d
    else some (crc, d)

/-- an unsigned word converted to `int` -/
def toInt (w : UInt32) : Int :=
  if w.toNat < 2147483648 then w.toNat else (w.toNat : Int) - 4294967296

/-- `ret`, the bytes written to the output file, and `file_len` at the end -/
structure Result where
  ret : Int
  out : List UInt8
  fileLen : Int

/-- what happens with a chunk whose payload is in `buf`; `again` is the next turn of the loop -/
def useChunk (kind : Kind) (again : Option Result) (type : UInt8) (dataLen fileLen : Int)
    (buf : List UInt8) : Option Result :=
  if type = fwimageSignature then
    if kind ≠ .signature then again
    else do
      let out ← load buf 0 dataLen.toNat
      some ⟨0, out, fileLen⟩
  else if type = fwimageInfo then
    if kind ≠ .metadata then some ⟨1, [], fileLen⟩
    else
      let dataLen := dataLen - hdrLen
      if validateMetadata buf ≠ 0 then again
      else if dataLen < 0 then none
      else do
        let out ← load buf hdrLen dataLen.toNat
        some ⟨0, out, fileLen⟩
  else again

/-- the loop over the chunks, from the last one on; `buf` is the output buffer and keeps the bytes
of the chunks that were skipped -/
def extractLoop (kind : Kind) (crc : UInt32) :
    Nat → DataBuf → List UInt8 → List UInt8 → Option Result
  | 0, _, _, _ => none
  | fuel + 1, d, trb, buf => do
    let (r, d, trb) ← extractTail d trb trailerLen
    if r ≠ 0 then some ⟨1, [], d.fileLen⟩
    else
      let tr := Trailer.ofBytes trb
      let dataLen := toInt (tr.size - UInt32.ofNat trailerLen)
      if tr.magic ≠ fwimageMagic then some ⟨1, [], d.fileLen⟩
      else
        let crc' ← tailCrc32 d crc
        if tr.crc32 ≠ crc' then some ⟨1, [], d.fileLen⟩
        else if dataLen > bufLen then some ⟨1, [], d.fileLen⟩
        else
          -- the result of this call is not looked at
          let (_, d, buf) ← extractTail d buf dataLen
          useChunk kind (extractLoop kind crc fuel d trb buf) tr.type dataLen d.fileLen buf

/-- the return value, the output and the new content of the firmware file -/
def extractData (heap : Heap) (kind : Kind) (truncateFile : Bool) (f : List UInt8) :
    Option (Int × List UInt8 × List UInt8) := do
  let (crc, d) ← readLoop heap (f.length + 1) f 0xffffffff ⟨none, none, 0, 0⟩
  let r ← extractLoop kind crc (f.length + 1) d heap.tr.1 heap.buf.1
  if r.ret = 0 ∧ truncateFile then some (r.ret, r.out, f.take r.fileLen.toNat)
  else some (r.ret, r.out, f)

end Fwtool
