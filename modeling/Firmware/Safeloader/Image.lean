import Firmware.Lib.Scanf
import Firmware.Md5.Md5

/-!
# tplink-safeloader

The factory image: the length, an MD5, the vendor information, a table of the partitions as text,
and the partitions one after the other.

* `putPartitions`          `put_partitions` on the buffer that starts with the table;
* `putMd5`                 `put_md5`: the MD5 of a salt and of all that is behind it;
* `generateFactoryImage`   `generate_factory_image`.

`none` is an exit with an error, a failed assertion or a write outside the image; there is memory.
-/

set_option linter.unusedVariables false

namespace Safeloader
open Img Word

/-- `struct image_partition_entry`; `size` is the length of the data -/
structure ImagePartition where
  name : CStr
  data : List UInt8

/-- `struct flash_partition_entry` -/
structure FlashPartition where
  name : CStr
  base : UInt32
  size : UInt32

/-- `struct device_info`; the vendor information has 4092 bytes in the image -/
structure DeviceInfo where
  vendor : Option CStr
  partitions : List FlashPartition
  vendor_fits : ∀ v ∈ vendor, v.length ≤ 4092

def md5Salt : List UInt8 :=
  [0x7a, 0x2b, 0x15, 0xed, 0x9b, 0x98, 0x59, 0x6d, 0xe5, 0x04, 0xab, 0x44, 0xac, 0x2a, 0x9f, 0x4e]

def fwupPtn : List UInt8 := CStr.ascii ['f', 'w', 'u', 'p', '-', 'p', 't', 'n', ' ']
def base0x : List UInt8 := CStr.ascii [' ', 'b', 'a', 's', 'e', ' ', '0', 'x']
def size0x : List UInt8 := CStr.ascii [' ', 's', 'i', 'z', 'e', ' ', '0', 'x']
def lineEnd : List UInt8 := [9, 13, 10]

/-- a line of the table, `"fwup-ptn %s base 0x%05x size 0x%05x\t\r\n"` -/
def line (name : CStr) (base size : UInt32) : List UInt8 :=
  fwupPtn ++ (name.bytes ++ (base0x ++ (Scanf.hexMin 5 base.toNat ++
    (size0x ++ (Scanf.hexMin 5 size.toNat ++ lineEnd)))))

/-- `put_partitions` from the partition on that goes to `base`; `imagePt` is the end of the text -/
def putPartitions (flashParts : List FlashPartition) :
    List ImagePartition → Nat → Nat → List UInt8 → Option (List UInt8)
  | [], _, _, buffer => some buffer
  | p :: ps, imagePt, base, buffer => do
    let flash ← flashParts.find? fun f => f.name = p.name
    if p.data.length > flash.size.toNat then none
    else
      let buffer ← store buffer base p.data
      let len := 0x800 - imagePt
      let l := line p.name (UInt32.ofNat base) (UInt32.ofNat p.data.length)
      let w := l.length
      if w > len - 1 then none
      else
        let buffer ← store buffer imagePt (l ++ [0])
        putPartitions flashParts ps (imagePt + w) (base + p.data.length) buffer

/-- `put_md5` with an `unsigned int len`; `stack` is what was in the context -/
def putMd5 (stack : Md5.Buffer) (buffer : List UInt8) (len : Nat) : List UInt8 :=
  let ctx := Md5.update (Md5.init stack) md5Salt
  Md5.final (Md5.update ctx (buffer.take (UInt32.ofNat len).toNat))

def putVendor (info : DeviceInfo) (image : List UInt8) : Option (List UInt8) :=
  match info.vendor with
  | none => some image
  | some v => do
    let image ← store image 0x14 (put32 true (UInt32.ofNat v.length))
    store image 0x18 v.bytes

def generateFactoryImage (stack : Md5.Buffer) (info : DeviceInfo) (parts : List ImagePartition) :
    Option (List UInt8) := do
  let len := 0x1814 + (parts.map fun p => p.data.length).sum
  let image ← store (List.replicate len 0xff) 0 (put32 true (UInt32.ofNat len))
  let image ← putVendor info image
  let buffer ← putPartitions info.partitions parts 0 0x800 (image.drop 0x1014)
  let image := image.take 0x1014 ++ buffer
  store image 0x04 (putMd5 stack (image.drop 0x14) (len - 0x14))

end Safeloader
