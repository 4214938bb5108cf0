import Firmware.Lib.Scanf
import Firmware.Lib.Fread
import Firmware.Lib.Bytes
import Firmware.Md5.Md5

/-!
# osafeloader

`osafeloader info` checks the MD5 and lists the partitions, `osafeloader extract` copies one of
them to a file.  The host has a 64-bit `size_t`.

* `fscanfPart`      a line of the table;
* `info`            `osafeloader_info`;
* `extract`         `osafeloader_extract`.

`none` is undefined behaviour: a name that does not fit, an overflow of an `int`.  Files can be
opened and written.
-/

set_option linter.unusedVariables false

namespace Osafeloader
open Img Word

def headerLen : Nat := 20

def md5Salt : List UInt8 :=
  [0x7a, 0x2b, 0x15, 0xed, 0x9b, 0x98, 0x59, 0x6d, 0xe5, 0x04, 0xab, 0x44, 0xac, 0x2a, 0x9f, 0x4e]

structure Entry where
  name : CStr
  base : Int
  size : Int
deriving DecidableEq

def fwupPtn : List UInt8 := CStr.ascii ['f', 'w', 'u', 'p', '-', 'p', 't', 'n']
def base : List UInt8 := CStr.ascii ['b', 'a', 's', 'e']
def size : List UInt8 := CStr.ascii ['s', 'i', 'z', 'e']
def hex0x : List UInt8 := CStr.ascii ['0', 'x']

/-- `%x` into an `int` -/
def hexInt (l : List UInt8) : Option (Int × List UInt8) :=
  (Scanf.hex l).map fun r => (CInt.wrap r.1.toNat, r.2)

/-- `" base 0x%x size 0x%x\t\r\n"`, behind the name -/
def scanSizes (name : CStr) (l : List UInt8) : Option (Entry × List UInt8) := do
  let l ← Scanf.lit base (Scanf.blank l)
  let l ← Scanf.lit hex0x (Scanf.blank l)
  let (b, l) ← hexInt l
  let l ← Scanf.lit size (Scanf.blank l)
  let l ← Scanf.lit hex0x (Scanf.blank l)
  let (s, l) ← hexInt l
  some (⟨name, b, s⟩, Scanf.blank l)

/-- `fscanf(f, "fwup-ptn %s base 0x%x size 0x%x\t\r\n", ..)`: the entry and what is left, if all
three are found; `char name[32]` -/
def fscanfPart (l : List UInt8) : Option (Option (Entry × List UInt8)) :=
  match (Scanf.lit fwupPtn l).bind fun l => Scanf.word (Scanf.blank l) with
  | none => some none
  | some (w, l) =>
    if w.length > 31 then none
    else some ((CStr.cstr (w ++ [0])).bind fun name => scanSizes name l)

/-! ## info -/

/-- the MD5 that `osafeloader_info` computes; `stack` is what was in the context -/
def computedMd5 (stack : Md5.Buffer) (file : List UInt8) : List UInt8 :=
  let imagesize := (get32 true (slice file 0 4)).toNat
  let ctx := Md5.update (Md5.init stack) md5Salt
  Md5.final (Fread.loop 1024 Md5.update (imagesize + 1) (file.drop headerLen) imagesize ctx).2

def storedMd5 (file : List UInt8) : List UInt8 := slice file 4 16

/-- a line of the output -/
structure Listed where
  name : CStr
  first : Int
  last : Int

/-- the partitions in the text `rest` -/
def listParts : Nat → List UInt8 → Option (List Listed)
  | 0, _ => none
  | fuel + 1, rest =>
    match fscanfPart rest with
    | none => none
    | some none => some []
    | some (some (e, rest)) => do
      let last ← CInt.intAdd e.base e.size
      let listed ← listParts fuel rest
      some (⟨e.name, e.base, last⟩ :: listed)

/-- what `osafeloader_info` prints -/
structure Info where
  imagesize : UInt32
  md5 : List UInt8
  partitions : List Listed

def info (stack : Md5.Buffer) (file : List UInt8) : Option (Except Int Info) :=
  if (file.take headerLen).length ≠ headerLen then some (.error (-5))
  else if computedMd5 stack file ≠ storedMd5 file then some (.error (-5))
  else do
    let partitions ← listParts (file.length + 1) (file.drop 0x1014)
    some (.ok ⟨get32 true (slice file 0 4), computedMd5 stack file, partitions⟩)

/-! ## extract -/

/-- an `int` converted to `size_t` -/
def sizeOfInt (i : Int) : Nat := (i % 18446744073709551616).toNat

/-- the read loop: what is left of `size`, and the output -/
def copyLoop : Nat → List UInt8 → Int → List UInt8 → Int × List UInt8
  | 0, _, size, out => (size, out)
  | fuel + 1, rest, size, out =>
    let buf := rest.take (min 1024 (sizeOfInt size))
    if buf.length = 0 then (size, out)
    else copyLoop fuel (rest.drop buf.length) (CInt.wrap (size - buf.length)) (out ++ buf)

/-- the entry with the name that is looked for, and the position behind its line -/
def findPart (partitionName : CStr) : Nat → List UInt8 → Option (Option (Entry × List UInt8))
  | 0, _ => none
  | fuel + 1, rest =>
    match fscanfPart rest with
    | none => none
    | some none => some none
    | some (some (e, rest)) =>
      if e.name = partitionName then some (some (e, rest)) else findPart partitionName fuel rest

/-- the copy of partition `e`; a seek to a negative position fails -/
def copyPart (file : List UInt8) (e : Entry) (rest : List UInt8) : Int × List UInt8 :=
  let pos := headerLen + 0x1000 + e.base
  let rest := if pos < 0 then rest else file.drop pos.toNat
  let (left, out) := copyLoop (rest.length + 1) rest e.size []
  (if left ≠ 0 then -5 else 0, out)

/-- `osafeloader_extract` with `-p partitionName` and `-o`: the return value and the output file -/
def extract (file : List UInt8) (partitionName : CStr) : Option (Int × List UInt8) :=
  if (file.take headerLen).length ≠ headerLen then some (-5, [])
  else
    match findPart partitionName (file.length + 1) (file.drop (headerLen + 0x1000)) with
    | none => none
    | some none => some (-2, [])
    | some (some (e, rest)) => some (copyPart file e rest)

end Osafeloader
