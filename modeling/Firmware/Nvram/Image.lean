import Firmware.Nvram.Table

/-!
# nvram: the image

The partition holds a 20-byte header at `offset`, then `name=value` records, each with its NUL,
and an empty record at the end.

* `nvramRehash`   `_nvram_rehash`: parse the records into an empty table, then add the SDRAM
                  variables that are missing from the header words;
* `nvramCommit`   regenerate the image from the table and parse it again; `commitImage` is the
                  part before the parse, with the list of the tuples it wrote;
* `nvramOpen`     find the magic, check the length, parse.

`none` is an access outside the mapping or through a NULL pointer.  Positions count from the
header.
-/

set_option linter.unusedVariables false

namespace Nvram
open Img Word CStr

variable {host : Host}

/-! ## constants -/

def nvramMagic : UInt32 := 0x48534C46
def nvramVersion : UInt32 := 1
def nvramMinSpace : Nat := 0x8000
def headerLen : Nat := 20
def crcStartPosition : Nat := 9

def sdramInit : UInt32 := 0x419
def sdramConfig : UInt32 := 0x0000
def sdramRefresh : UInt32 := (0x40 &&& 0xff) ||| 0x8000

def nameInit : CStr := lit ['s', 'd', 'r', 'a', 'm', '_', 'i', 'n', 'i', 't'] (by decide)
def nameConfig : CStr :=
  lit ['s', 'd', 'r', 'a', 'm', '_', 'c', 'o', 'n', 'f', 'i', 'g'] (by decide)
def nameRefresh : CStr :=
  lit ['s', 'd', 'r', 'a', 'm', '_', 'r', 'e', 'f', 'r', 'e', 's', 'h'] (by decide)
def nameNcdl : CStr := lit ['s', 'd', 'r', 'a', 'm', '_', 'n', 'c', 'd', 'l'] (by decide)

/-- the variables `_nvram_rehash` adds when they are missing -/
def sdramNames : List CStr := [nameInit, nameConfig, nameRefresh, nameNcdl]

/-! ## CRC8 -/

def crc8Table : List UInt8 := [
    0x00, 0xF7, 0xB9, 0x4E, 0x25, 0xD2, 0x9C, 0x6B, 0x4A, 0xBD, 0xF3, 0x04, 0x6F, 0x98, 0xD6, 0x21,
    0x94, 0x63, 0x2D, 0xDA, 0xB1, 0x46, 0x08, 0xFF, 0xDE, 0x29, 0x67, 0x90, 0xFB, 0x0C, 0x42, 0xB5,
    0x7F, 0x88, 0xC6, 0x31, 0x5A, 0xAD, 0xE3, 0x14, 0x35, 0xC2, 0x8C, 0x7B, 0x10, 0xE7, 0xA9, 0x5E,
    0xEB, 0x1C, 0x52, 0xA5, 0xCE, 0x39, 0x77, 0x80, 0xA1, 0x56, 0x18, 0xEF, 0x84, 0x73, 0x3D, 0xCA,
    0xFE, 0x09, 0x47, 0xB0, 0xDB, 0x2C, 0x62, 0x95, 0xB4, 0x43, 0x0D, 0xFA, 0x91, 0x66, 0x28, 0xDF,
    0x6A, 0x9D, 0xD3, 0x24, 0x4F, 0xB8, 0xF6, 0x01, 0x20, 0xD7, 0x99, 0x6E, 0x05, 0xF2, 0xBC, 0x4B,
    0x81, 0x76, 0x38, 0xCF, 0xA4, 0x53, 0x1D, 0xEA, 0xCB, 0x3C, 0x72, 0x85, 0xEE, 0x19, 0x57, 0xA0,
    0x15, 0xE2, 0xAC, 0x5B, 0x30, 0xC7, 0x89, 0x7E, 0x5F, 0xA8, 0xE6, 0x11, 0x7A, 0x8D, 0xC3, 0x34,
    0xAB, 0x5C, 0x12, 0xE5, 0x8E, 0x79, 0x37, 0xC0, 0xE1, 0x16, 0x58, 0xAF, 0xC4, 0x33, 0x7D, 0x8A,
    0x3F, 0xC8, 0x86, 0x71, 0x1A, 0xED, 0xA3, 0x54, 0x75, 0x82, 0xCC, 0x3B, 0x50, 0xA7, 0xE9, 0x1E,
    0xD4, 0x23, 0x6D, 0x9A, 0xF1, 0x06, 0x48, 0xBF, 0x9E, 0x69, 0x27, 0xD0, 0xBB, 0x4C, 0x02, 0xF5,
    0x40, 0xB7, 0xF9, 0x0E, 0x65, 0x92, 0xDC, 0x2B, 0x0A, 0xFD, 0xB3, 0x44, 0x2F, 0xD8, 0x96, 0x61,
    0x55, 0xA2, 0xEC, 0x1B, 0x70, 0x87, 0xC9, 0x3E, 0x1F, 0xE8, 0xA6, 0x51, 0x3A, 0xCD, 0x83, 0x74,
    0xC1, 0x36, 0x78, 0x8F, 0xE4, 0x13, 0x5D, 0xAA, 0x8B, 0x7C, 0x32, 0xC5, 0xAE, 0x59, 0x17, 0xE0,
    0x2A, 0xDD, 0x93, 0x64, 0x0F, 0xF8, 0xB6, 0x41, 0x60, 0x97, 0xD9, 0x2E, 0x45, 0xB2, 0xFC, 0x0B,
    0xBE, 0x49, 0x07, 0xF0, 0x9B, 0x6C, 0x22, 0xD5, 0xF4, 0x03, 0x4D, 0xBA, 0xD1, 0x26, 0x68, 0x9F]

def hndcrc8 (l : List UInt8) (crc : UInt8) : UInt8 :=
  l.foldl (fun crc b => crc8Table.getD (crc ^^^ b).toNat 0) crc

/-! ## parsing -/

/-- the loop of `_nvram_rehash` over "name=value\0 ... \0\0"; `*eq` is NUL while `nvram_set`
reads the name -/
def rehashLoop : Nat → List UInt8 → Nat → Handle host → Option (List UInt8 × Handle host)
  | 0, _, _, _ => none
  | fuel + 1, m, name, h => do
    let c ← m[name]?
    if c = 0 then some (m, h)
    else
      match ← strchr eqSign (m.drop name) with
      | none => some (m, h)
      | some i =>
        let eq := name + i
        let value := eq + 1
        let m := m.set eq 0
        let n ← cstr (m.drop name)
        let v ← cstr (m.drop value)
        let h := (nvramSet .ok h n v).2
        let m := m.set eq eqSign
        let l ← strlen (m.drop value)
        rehashLoop fuel m (value + l + 1) h

/-- `if (!nvram_get(h, name)) nvram_set(h, name, value)` -/
def setDefault (h : Handle host) (name value : CStr) : Handle host :=
  if nvramGet h name = none then (nvramSet .ok h name value).2 else h

/-- (re)initialize the hash table -/
def nvramRehash (h : Handle host) : Option (Int × Handle host) := do
  let (m, h1) ← rehashLoop (h.area.length + 1) h.area headerLen (nvramFree h)
  let cvi ← load32 host.big m 8
  let cr ← load32 host.big m 12
  let cn ← load32 host.big m 16
  let h1 := setDefault h1 nameInit (hex0x 4 (cvi >>> 16).toNat)
  let h1 := setDefault h1 nameConfig (hex0x 4 (cr &&& 0xffff).toNat)
  let h1 := setDefault h1 nameRefresh (hex0x 4 (cr >>> 16 &&& 0xffff).toNat)
  let h1 := setDefault h1 nameNcdl (hex0x 8 cn.toNat)
  some (0, { h1 with mmap := h.mmap.take h.offset ++ m })

/-! ## writing -/

/-- what `sprintf(ptr, "%s=%s", name, value)` puts down, its NUL included -/
def record (n v : CStr) : List UInt8 := n.bytes ++ (eqSign :: (v.bytes ++ [0]))

/-- the image, the write pointer and the tuples written so far -/
structure Out where
  m : List UInt8
  ptr : Nat
  written : List Tuple

/-- one chain; `break` leaves the rest of it out -/
def writeChain (e : Nat) : List Tuple → Out → Option Out
  | [], o => some o
  | (n, v) :: ts, o => do
    let v ← v
    if o.ptr + n.length + 1 + v.length + 1 > e then some o
    else
      let m ← store o.m o.ptr (record n v)
      writeChain e ts ⟨m, o.ptr + (n.length + 1 + v.length) + 1, o.written ++ [(n, some v)]⟩

/-- write out all tuples -/
def writeTuples (e : Nat) : List (List Tuple) → Out → Option Out
  | [], o => some o
  | c :: cs, o => do
    let o ← writeChain e c o
    writeTuples e cs o

/-- a pointer cast to `int` -/
def ptrInt (a : Nat) : Int :=
  if a % 4294967296 < 2147483648 then (a % 4294967296 : Nat)
  else ((a % 4294967296 : Nat) : Int) - 4294967296

/-- how many bytes the padding `memset` clears from the address `a` on -/
def padCount (a : Nat) : Nat :=
  if (ptrInt a).tmod 4 ≠ 0 then (4 - (ptrInt a).tmod 4).toNat else 0

def roundup4 (x : Nat) : Nat := (x + 3) / 4 * 4

def low16 (w : UInt32) : UInt32 := w &&& 0xffff

/-- `crc_ver_init` without its CRC, `config_refresh` and `config_ncdl` -/
def sdramWords (h : Handle host) : UInt32 × UInt32 × UInt32 :=
  match nvramGet h nameInit, nvramGet h nameConfig, nvramGet h nameRefresh,
    nvramGet h nameNcdl with
  | some init, some config, some refresh, some ncdl =>
    (nvramVersion <<< 8 ||| low16 (strtoul host.ulongMax init) <<< 16,
      low16 (strtoul host.ulongMax config) ||| low16 (strtoul host.ulongMax refresh) <<< 16,
      strtoul host.ulongMax ncdl)
  | _, _, _, _ =>
    (nvramVersion <<< 8 ||| sdramInit <<< 16, sdramConfig ||| sdramRefresh <<< 16, 0)

/-- the scratch header of the CRC: magic, length and CRC byte are zero -/
def crcHeader (big : Bool) (cvi cr cn : UInt32) : List UInt8 :=
  put32 big 0 ++ (put32 big 0 ++ (put32 big cvi ++ (put32 big cr ++ put32 big cn)))

/-- regenerate the header, clear the data area, write out all tuples -/
def commitBody (h : Handle host) (cvi cr cn : UInt32) : Option Out := do
  let m ← store32 host.big h.area 0 nvramMagic
  let m ← store32 host.big m 8 cvi
  let m ← store32 host.big m 12 cr
  let m ← store32 host.big m 16 cn
  let m ← store m headerLen (List.replicate (h.space - headerLen) 0xFF)
  writeTuples (h.space - 2) h.table.chains ⟨m, headerLen, []⟩

/-- end with a double NUL, pad to 4 bytes, set the new length and the new CRC8 -/
def commitEnd (h : Handle host) (cvi cr cn : UInt32) (o : Out) : Option Out := do
  let m ← store o.m o.ptr [0]
  let ptr := o.ptr + 1
  let m ← store m ptr (List.replicate (padCount (h.addr + h.offset + ptr)) 0)
  let ptr := ptr + 1
  let len := roundup4 ptr
  let m ← store32 host.big m 4 (UInt32.ofNat len)
  let crc := hndcrc8 ((crcHeader host.big cvi cr cn).drop crcStartPosition) 0xff
  let data ← load m headerLen (len - headerLen)
  let crc := hndcrc8 data crc
  let m ← store32 host.big m 8 (cvi ||| crc.toUInt32)
  some ⟨m, ptr, o.written⟩

/-- regenerate the image -/
def commitImage (h : Handle host) : Option Out := do
  let (cvi, cr, cn) := sdramWords h
  let o ← commitBody h cvi cr cn
  commitEnd h cvi cr cn o

/-- regenerate NVRAM; the result is that of `_nvram_rehash` -/
def nvramCommit (h : Handle host) : Option (Int × Handle host) := do
  let o ← commitImage h
  nvramRehash { h with mmap := h.mmap.take h.offset ++ o.m }

/-! ## opening -/

/-- the search for the magic: word index `i`, last index `limit` -/
def findMagic (big : Bool) (m : List UInt8) (limit : Nat) : Nat → Nat → Option (Option Nat)
  | 0, _ => none
  | fuel + 1, i =>
    if limit < i then some none
    else do
      let w ← load32 big m (4 * i)
      if w = nvramMagic then some (some i) else findMagic big m limit fuel (i + 1)

/-- `(nvram_part_size - NVRAM_MIN_SPACE) / sizeof(uint32_t)` in `size_t` -/
def searchLimit (host : Host) (partSize : Nat) : Nat :=
  (partSize + (host.ulongMax + 1) - nvramMinSpace) % (host.ulongMax + 1) / 4

/-- an MTD partition or staging file: its size is a multiple of the word size and fits the
`unsigned int` that holds it -/
structure Partition where
  bytes : List UInt8
  words : 4 ∣ bytes.length
  small : bytes.length < 4294967296

/-- where `mmap` puts the partition -/
structure PageAddr where
  addr : Nat
  page : 4096 ∣ addr

/-- open NVRAM and obtain a handle, for a mapping of any content; the inner `none` is the NULL the
function returns -/
def nvramOpenBytes (host : Host) (a : PageAddr) (bytes : List UInt8) (rdonly : Bool) :
    Option (Option (Handle host)) :=
  -- without a size the function returns before it maps anything
  if bytes.length = 0 then some none
  else do
    match ← findMagic host.big bytes (searchLimit host bytes.length) (bytes.length + 1) 0 with
    | none => some none
    | some i =>
      -- `offset` is an `int`
      if 2147483648 ≤ 4 * i then some none
      else
        let h : Handle host := ⟨a.addr, bytes, 4 * i, Chained.empty, []⟩
        let magic ← load32 host.big h.area 0
        let fits ← if rdonly then some true
          else (load32 host.big h.area 4).map fun len => decide (len.toNat < h.space)
        if magic = nvramMagic ∧ fits then
          let (_, h) ← nvramRehash h
          some (some h)
        else some none

def nvramOpen (host : Host) (a : PageAddr) (p : Partition) (rdonly : Bool) :
    Option (Option (Handle host)) :=
  nvramOpenBytes host a p.bytes rdonly

end Nvram
