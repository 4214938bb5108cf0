import Firmware.Lib.Cstr
import Firmware.Lib.Fread
import Firmware.Md5.Md5

/-!
# oseama

`oseama entity` writes a Seama entity: a header, the meta strings and the data.  `oseama extract`
cuts an entity out of a seal, that is of a header with its own meta block and a row of entities.
The host has a 64-bit `size_t`.

* `appendMeta`, `appendImage`   the two passes over the options of `oseama entity`;
* `writeHdr`, `entity`          the header, and the file that is left;
* `extract`                     what `oseama extract` writes.

`malloc` says which allocations succeed; files are written without errors.
-/

set_option linter.unusedVariables false

namespace Oseama
open Img Word

def seamaMagic : UInt32 := 0x5ea3a417

/-- `struct seama_seal_header`; `reserved` is 0 -/
structure SealHeader where
  magic : UInt32
  metasize : UInt16
  imagesize : UInt32

def sealLen : Nat := 12

def SealHeader.bytes (h : SealHeader) : List UInt8 :=
  put32 true h.magic ++ (put16 true 0 ++ (put16 true h.metasize ++ put32 true h.imagesize))

/-- `struct seama_entity_header`; `reserved` is 0 -/
structure EntityHeader where
  magic : UInt32
  metasize : UInt16
  imagesize : UInt32
  md5 : List UInt8

def entityLen : Nat := 28

def EntityHeader.bytes (h : EntityHeader) : List UInt8 :=
  put32 true h.magic ++ (put16 true 0 ++ (put16 true h.metasize ++ (put32 true h.imagesize ++ h.md5)))

/-! ## create -/

/-- the result of `strtol` -/
structure Long where
  val : Int
  inRange : -9223372036854775808 ≤ val ∧ val < 9223372036854775808

/-- an option with its argument: a string, the content of a file that can be opened, an offset -/
inductive Opt where
  | m (optarg : CStr)
  | f (content : Option (List UInt8))
  | b (n : Long)

/-- the file behind the header, and the variables of `oseama_entity` -/
structure St where
  body : List UInt8
  currOffset : Nat
  metasize : Nat
  imagesize : Nat

def st0 : St := ⟨[], entityLen, 0, 0⟩

/-- `size_t` -/
def size (n : Nat) : Nat := n % 18446744073709551616

/-- a `size_t` difference read as `ssize_t` -/
def ssize (i : Int) : Int :=
  (i + 9223372036854775808) % 18446744073709551616 - 9223372036854775808

/-- bytes of the first pass; `none` was not written and is not counted -/
def St.putMeta (s : St) : Option (List UInt8) → St
  | none => s
  | some d => { s with
    body := s.body ++ d
    currOffset := size (s.currOffset + d.length)
    metasize := size (s.metasize + d.length) }

/-- the same in the second pass -/
def St.putImage (s : St) : Option (List UInt8) → St
  | none => s
  | some d => { s with
    body := s.body ++ d
    currOffset := size (s.currOffset + d.length)
    imagesize := size (s.imagesize + d.length) }

/-- `oseama_entity_append_zeros`: the bytes it writes -/
def appendZeros (malloc : Nat → Bool) (length : Nat) : Option (List UInt8) :=
  if malloc length then some (zeros length) else none

/-- `oseama_entity_align` -/
def align (malloc : Nat → Bool) (currOffset alignment : Nat) : Option (List UInt8) :=
  if currOffset % alignment = 0 then some []
  else appendZeros malloc (alignment - currOffset % alignment)

/-- an option in the first pass -/
def appendMeta (malloc : Nat → Bool) (s : St) : Opt → St
  | .m optarg =>
    let s := s.putMeta (some (optarg.bytes ++ [0]))
    s.putMeta (align malloc s.currOffset 4)
  | .f _ => s
  | .b _ => s

/-- an option in the second pass -/
def appendImage (malloc : Nat → Bool) (s : St) : Opt → St
  | .m _ => s
  | .f content => s.putImage content
  | .b n =>
    let sbytes := ssize (n.val - s.currOffset)
    if sbytes < 0 then s else s.putImage (appendZeros malloc sbytes.toNat)

/-- `oseama_entity_write_hdr`: the file afterwards; `buf` is what was on the stack -/
def writeHdr (buf : Md5.Buffer) (s : St) : List UInt8 :=
  let file := zeros entityLen ++ s.body
  let (_, ctx) := Fread.loop 128 Md5.update (s.imagesize + 1)
    (file.drop (size (entityLen + s.metasize))) s.imagesize (Md5.init buf)
  let hdr : EntityHeader :=
    ⟨seamaMagic, UInt16.ofNat s.metasize, UInt32.ofNat s.imagesize, Md5.final ctx⟩
  hdr.bytes ++ s.body

def entity (malloc : Nat → Bool) (buf : Md5.Buffer) (opts : List Opt) : List UInt8 :=
  writeHdr buf (opts.foldl (appendImage malloc) (opts.foldl (appendMeta malloc) st0))

/-! ## extract -/

/-- `oseama_extract_entity` on what is left of the file, at entity `i`: the return value and the
output -/
def extractEntity (entityIdx : Int) : Nat → Int → List UInt8 → Int × List UInt8
  | 0, _, _ => (0, [])
  | fuel + 1, i, rest =>
    let hdr := rest.take entityLen
    if hdr.length ≠ entityLen then (0, [])
    else if get32 true (slice hdr 0 4) ≠ seamaMagic then (-22, [])
    else
      let metasize := (get16 true (slice hdr 6 2)).toNat
      let imagesize := (get32 true (slice hdr 8 4)).toNat
      if i ≠ entityIdx then
        extractEntity entityIdx fuel (i + 1) (rest.drop (entityLen + (metasize + imagesize)))
      else
        let length := entityLen + metasize + imagesize
        let (left, out) := Fread.loop 1024 (· ++ ·) (length + 1) rest length []
        if left ≠ 0 then (-5, out) else (0, out)

/-- `oseama_extract` with `-e entityIdx` and `-o`: the return value, and the output file if it is
opened -/
def extract (file : List UInt8) (entityIdx : Int) : Int × Option (List UInt8) :=
  let hdr := file.take sealLen
  if entityIdx < 0 then (-22, none)
  else if hdr.length ≠ sealLen then (-5, some [])
  else
    let metasize := (get16 true (slice hdr 6 2)).toNat
    -- the return value of `oseama_extract_entity` is not looked at
    (0, some (extractEntity entityIdx (file.length + 1) 0 (file.drop (sealLen + metasize))).2)

end Oseama
