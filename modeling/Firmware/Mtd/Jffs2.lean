import Firmware.Mtd.Device

/-!
# mtd: the jffs2 writer

`jffs2.c` builds erase blocks in a buffer and hands each full one to `pad`.  Nothing it computes
depends on the device, so the blocks are collected here (`Jst.out`) and `mtdReplaceJffs2` of
`Mtd.Write` applies the device operations of `pad` to them in order.

* `pad`, `prepEraseblock`, `addData`   the buffer;
* `addDirent`, `addFile`               the nodes of a file;
* `encode`                             the body of `mtd_replace_jffs2`: the file, an EOF marker;
* `parseJffs2data`                     `mtd_parse_jffs2data`: the last inode and version numbers.

`none` is undefined behaviour (a write outside the buffer, an overflow of an `int`) or a loop that
never ends.
-/

set_option linter.unusedVariables false

namespace Mtd
open Img Word CInt

/-! ## formats -/

def jffs2Eof : List UInt8 := [0xde, 0xad, 0xc0, 0xde]

def jffs2MagicBitmask : UInt16 := 0x1985
def jffs2NodetypeDirent : UInt16 := 0xe001
def jffs2NodetypeInode : UInt16 := 0xe002

def cleanMarker (big : Bool) : List UInt8 :=
  if big then [0x19, 0x85, 0x20, 0x03, 0x00, 0x00, 0x00, 0x0c, 0xf0, 0x60, 0xdc, 0x98]
  else [0x85, 0x19, 0x03, 0x20, 0x0c, 0x00, 0x00, 0x00, 0xb1, 0xb0, 0x1e, 0xe4]

def crc32 (val : UInt32) (l : List UInt8) : UInt32 := Crc.block Crc.table32 val l

/-- an `int` stored in a 32-bit field -/
def word (i : Int) : UInt32 := UInt32.ofNat (i % 4294967296).toNat

/-- `struct jffs2_unknown_node` up to `hdr_crc` -/
def nodeHdr (big : Bool) (nodetype : UInt16) (totlen : UInt32) : List UInt8 :=
  put16 big jffs2MagicBitmask ++ (put16 big nodetype ++ put32 big totlen)

def hdrCrc (big : Bool) (nodetype : UInt16) (totlen : UInt32) : UInt32 :=
  crc32 0 (nodeHdr big nodetype totlen)

/-- `sizeof(struct jffs2_raw_dirent)` -/
def direntLen : Nat := 40

/-- `sizeof(struct jffs2_raw_inode)` -/
def inodeLen : Nat := 68

/-- `IFTODT(S_IFREG)` -/
def dtReg : UInt8 := 8

/-- the dirent without its two CRCs -/
def direntHead (big : Bool) (name : List UInt8) (type : UInt8) (parent ino version : UInt32) :
    List UInt8 :=
  nodeHdr big jffs2NodetypeDirent (UInt32.ofNat (direntLen + name.length)) ++
    (put32 big (hdrCrc big jffs2NodetypeDirent (UInt32.ofNat (direntLen + name.length))) ++
      (put32 big parent ++ (put32 big version ++ (put32 big ino ++ (put32 big 0 ++
        [UInt8.ofNat name.length, type, 0, 0])))))

def direntNode (big : Bool) (name : List UInt8) (type : UInt8) (parent ino version : UInt32) :
    List UInt8 :=
  direntHead big name type parent ino version ++
    (put32 big (crc32 0 (direntHead big name type parent ino version)) ++
      (put32 big (crc32 0 name) ++ name))

/-- what `stat` says about the file -/
structure Stat where
  mode : UInt32
  size : UInt32
  atime : UInt32
  mtime : UInt32
  ctime : UInt32

/-- the inode without its two CRCs and the data -/
def inodeHead (big : Bool) (st : Stat) (ino version offset : UInt32) (len : Nat) : List UInt8 :=
  nodeHdr big jffs2NodetypeInode (UInt32.ofNat (inodeLen + len)) ++
    (put32 big (hdrCrc big jffs2NodetypeInode (UInt32.ofNat (inodeLen + len))) ++
      (put32 big ino ++ (put32 big version ++ (put32 big st.mode ++ (put16 big 0 ++ (put16 big 0 ++
        (put32 big st.size ++ (put32 big st.atime ++ (put32 big st.mtime ++ (put32 big st.ctime ++
          (put32 big offset ++ (put32 big (UInt32.ofNat len) ++ (put32 big (UInt32.ofNat len) ++
            ([0, 0] ++ put16 big 0))))))))))))))

def inodeHdr (big : Bool) (st : Stat) (ino version offset : UInt32) (data : List UInt8) :
    List UInt8 :=
  inodeHead big st ino version offset data.length ++ (put32 big (crc32 0 data) ++
    put32 big (crc32 0 (inodeHead big st ino version offset data.length)))

/-! ## the buffer -/

/-- the static variables of `jffs2.c`, and the blocks handed out so far -/
structure Jst where
  lastIno : Int
  lastVersion : Int
  targetIno : Int
  buf : List UInt8
  ofs : Nat
  out : List (List UInt8)

/-- what the writer is run on: erase size, byte order -/
structure Jenv where
  E : Nat
  big : Bool

def pad (v : Jenv) (size : Nat) (s : Jst) : Option Jst :=
  if s.ofs % size = 0 ∧ s.ofs < v.E then some s
  else do
    let s ← if s.ofs < v.E then do
        let buf ← store s.buf s.ofs (List.replicate (size - s.ofs % size) 0xff)
        some { s with buf := buf, ofs := s.ofs + (size - s.ofs % size) }
      else some s
    let s := { s with ofs := s.ofs % v.E }
    if s.ofs = 0 then some { s with out := s.out ++ [s.buf] } else some s

def rbytes (v : Jenv) (s : Jst) : Nat := v.E - s.ofs % v.E

/-- `memcpy(buf + ofs, ptr, len); ofs += len;` -/
def put (s : Jst) (l : List UInt8) : Option Jst := do
  let buf ← store s.buf s.ofs l
  some { s with buf := buf, ofs := s.ofs + l.length }

/-- with no room for the marker the call of `add_data` never comes back -/
def prepEraseblock (v : Jenv) (s : Jst) : Option Jst :=
  if s.ofs > 0 then some s
  else if (cleanMarker v.big).length > v.E then none
  else put s (cleanMarker v.big)

def addData (v : Jenv) (l : List UInt8) (s : Jst) : Option Jst := do
  let s ← if s.ofs + l.length > v.E then do
      let s ← pad v v.E s
      prepEraseblock v s
    else some s
  put s l

/-! ## nodes -/

/-- the room test compares `ofs - erasesize` as an unsigned number, so it only holds when `ofs` is
past the block -/
def addDirent (v : Jenv) (name : List UInt8) (type : UInt8) (parent : UInt32) (s : Jst) :
    Option (UInt32 × Jst) := do
  let s ← if v.E ≤ s.ofs ∧ s.ofs - v.E < direntLen + name.length then pad v v.E s else some s
  let s ← prepEraseblock v s
  let ino ← intAdd s.lastIno 1
  let lastIno ← intAdd ino 1
  let version := s.lastVersion
  let lastVersion ← intAdd s.lastVersion 1
  let s := { s with lastIno := lastIno, lastVersion := lastVersion }
  let buf ← store s.buf s.ofs (direntNode v.big name type parent (word ino) (word version))
  let s := { s with buf := buf, ofs := s.ofs + direntLen + name.length % 256 }
  let s ← pad v 4 s
  some (word ino, s)

/-- the inner loop of `add_file`: room for a node of more than 128 bytes; when a fresh block has
none the loop never ends -/
def makeRoom (v : Jenv) (s : Jst) : Option Jst :=
  if (rbytes v s : Int) - inodeLen > 128 then some s
  else do
    let s ← pad v v.E s
    let s ← prepEraseblock v s
    if (rbytes v s : Int) - inodeLen > 128 then some s else none

/-- the loop over the content of the file -/
def addNodes (v : Jenv) (st : Stat) (ino : UInt32) :
    Nat → List UInt8 → Int → Jst → Option Jst
  | 0, _, _, _ => none
  | fuel + 1, content, fOffset, s => do
    let s ← makeRoom v s
    let len := min (rbytes v s - inodeLen) 4096
    let wbuf := content.take len
    if wbuf.length = 0 then some s
    else
      let version ← intAdd s.lastVersion 1
      let s := { s with lastVersion := version }
      let ri := inodeHdr v.big st ino (word version) (word fOffset) wbuf
      let fOffset ← intAdd fOffset wbuf.length
      let s ← addData v ri s
      let s ← addData v wbuf s
      let s ← pad v 4 s
      let s ← prepEraseblock v s
      addNodes v st ino fuel (content.drop len) fOffset s

/-- a file: the last component of its name, its content and its attributes -/
structure File where
  name : List UInt8
  content : List UInt8
  stat : Stat

def addFile (v : Jenv) (f : File) (parent : UInt32) (s : Jst) : Option Jst := do
  let (ino, s) ← addDirent v f.name dtReg parent s
  addNodes v f.stat ino (f.content.length + 1) f.content 0 s

/-- `mtd_replace_jffs2` without the device: `buf` is a fresh allocation with content `junk` -/
def encode (v : Jenv) (f : File) (junk : List UInt8) (s : Jst) : Option Jst := do
  let s := { s with buf := junk, targetIno := 1, lastIno := if s.lastIno = 0 then 1 else s.lastIno }
  let s ← addFile v f 1 s
  let s ← pad v v.E s
  let s ← addData v jffs2Eof s
  pad v v.E s

/-! ## scanning -/

def load16 (big : Bool) (m : List UInt8) (off : Nat) : Option UInt16 :=
  (load m off 2).map fun l =>
    UInt16.ofNat (if big then 256 * (l.getD 0 0).toNat + (l.getD 1 0).toNat
      else (l.getD 0 0).toNat + 256 * (l.getD 1 0).toNat)

def load8 (m : List UInt8) (off : Nat) : Option UInt8 := m[off]?

/-- `PAD(x)` in 32 bits -/
def pad4 (x : UInt32) : UInt32 := (x + 3) &&& 0xfffffffc

/-- `strncmp(name, dir, n) == 0`, `name` read from the buffer -/
def strncmp0 (m : List UInt8) : Nat → Nat → List UInt8 → Option Bool
  | 0, _, _ => some true
  | n + 1, off, dir => do
    let c ← load8 m off
    let x := dir.headD 0
    if c ≠ x then some false
    else if c = 0 then some true
    else strncmp0 m n (off + 1) dir.tail

/-- an unsigned word converted to `int` -/
def toInt (w : UInt32) : Int :=
  if w.toNat < 2147483648 then w.toNat else (w.toNat : Int) - 4294967296

/-- a subdirectory of the root with the right name becomes the target -/
def noteTarget (v : Jenv) (dir buf : List UInt8) (ofs : Nat) (s : Jst) : Option Jst :=
  if dir = [] then some s
  else do
    let pino ← load32 v.big buf (ofs + 12)
    if pino ≠ 1 then some s
    else
      let nsize ← load8 buf (ofs + 28)
      let same ← strncmp0 buf nsize.toNat (ofs + 40) dir
      if same = true then (load32 v.big buf (ofs + 20)).map fun ino => { s with targetIno := toInt ino }
      else some s

/-- the last inode and version numbers; the comparisons are unsigned -/
def noteNumbers (v : Jenv) (buf : List UInt8) (ofs : Nat) (s : Jst) : Option Jst := do
  let ino ← load32 v.big buf (ofs + 20)
  let version ← load32 v.big buf (ofs + 16)
  some { s with
    lastIno := if (word s.lastIno).toNat < ino.toNat then toInt ino else s.lastIno
    lastVersion := if (word s.lastVersion).toNat < version.toNat then toInt version
      else s.lastVersion }

def noteDirent (v : Jenv) (dir buf : List UInt8) (ofs : Nat) (s : Jst) : Option Jst :=
  (noteTarget v dir buf ofs s).bind (noteNumbers v buf ofs)

/-- the loop of `mtd_parse_jffs2data`; a position that comes back never leaves -/
def parseLoop (v : Jenv) (dir buf : List UInt8) : Nat → UInt32 → Jst → Option Jst
  | 0, _, _ => none
  | fuel + 1, ofs, s =>
    if ofs.toNat < v.E then do
      let magic ← load16 v.big buf ofs.toNat
      if magic ≠ jffs2MagicBitmask then some s
      else
        let totlen ← load32 v.big buf (ofs.toNat + 4)
        let nodetype ← load16 v.big buf (ofs.toNat + 2)
        let s ← if nodetype = jffs2NodetypeDirent then noteDirent v dir buf ofs.toNat s else some s
        parseLoop v dir buf fuel (ofs + pad4 totlen) s
    else some s

def parseJffs2data (v : Jenv) (dir buf : List UInt8) (s : Jst) : Option Jst :=
  parseLoop v dir buf (v.E + 1) 0 s

end Mtd
