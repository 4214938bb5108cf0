import Firmware.Lib.Blocks
import Firmware.Mtd.Write

/-!
# mtd: `mtd_write_jffs2`

`mtd jffs2write` appends a file to a jffs2 partition.  The blocks of the file system are read up to
its end, and nodes for the file are written over the end marker; a new end marker comes behind
them.

* `scanFs`          the loop over the blocks: the directory, the last inode and version numbers;
* `addDir`          a directory that was not found;
* `tryAddFile`      `add_file` with its two early returns;
* `appendNodes`     everything that is handed to `pad`, in order;
* `writeNodes`      what leads to the value returned;
* `mtdWriteJffs2`   the whole: `ok` is the value returned, and the device.

The statics of `jffs2.c` are zero when the program starts.
-/

set_option linter.unusedVariables false

namespace Mtd
open Img Word CInt Blocks

/-- the magic of the other byte order -/
def jffs2Swapped : UInt16 := 0x8519

/-- `IFTODT(S_IFDIR)` -/
def dtDir : UInt8 := 4

/-- `S_IFDIR | 0755` -/
def dirMode : UInt32 := 0o040755

/-- a run of `mtd jffs2write`: byte order, `dir`, `filename`, what `stat` and `open` say about the
file, and `trx_fixup`, whose result is not looked at -/
structure Job (E : Nat) where
  big : Bool
  dir : List UInt8
  filename : List UInt8
  stat : Option Stat
  content : Option (List UInt8)
  fixup : Dev E → Dev E

def Job.env {E : Nat} (c : Job E) : Jenv := ⟨E, c.big⟩

/-! ## the blocks of the file system -/

/-- the block that ends the loop: one that cannot be read, one of the other byte order, one without
a magic -/
inductive FsEnd where
  | short
  | swapped
  | free
deriving DecidableEq

/-- without a directory the root is meant -/
def statics (dir : List UInt8) : Jst := ⟨0, 0, if dir = [] then 1 else 0, [], 0, []⟩

/-- the loop over the blocks that `read` delivers -/
def scanFs (v : Jenv) (dir : List UInt8) : List (List UInt8) → Int → Jst →
    Except Halt (FsEnd × Int × Jst)
  | [], mtdofs, s => .ok (.short, mtdofs, s)
  | b :: bs, mtdofs, s => do
    let mtdofs ← advance v.E mtdofs
    match load16 v.big b 0 with
    | none => .error .fault
    | some magic =>
      if magic = jffs2Swapped then .ok (.swapped, mtdofs, { s with buf := b })
      else if magic ≠ jffs2MagicBitmask then .ok (.free, mtdofs, { s with buf := b })
      else
        match parseJffs2data v dir b { s with buf := b } with
        | none => .error .fault
        | some s => scanFs v dir bs mtdofs s

/-- one turn: the block ends the loop, or it is parsed -/
theorem scanFs_turn {v : Jenv} {dir b : List UInt8} {bs : List (List UInt8)} {m0 m : Int} {e : FsEnd}
    {s s' : Jst} (h : scanFs v dir (b :: bs) m0 s = .ok (e, m, s')) :
    ∃ m1 magic, advance v.E m0 = .ok m1 ∧ load16 v.big b 0 = some magic ∧
      (magic ≠ jffs2MagicBitmask ∧ m = m1 ∧ s' = { s with buf := b } ∨
        magic = jffs2MagicBitmask ∧ ∃ s1, parseJffs2data v dir b { s with buf := b } = some s1 ∧
          scanFs v dir bs m1 s1 = .ok (e, m, s')) := by
  have hsw : jffs2Swapped ≠ jffs2MagicBitmask := by decide
  unfold scanFs at h
  obtain ⟨m1, ha, h⟩ := bind_ok h
  cases hm : load16 v.big b 0 with
  | none =>
    rw [hm] at h
    exact absurd h (by simp)
  | some magic =>
    rw [hm] at h
    simp only at h
    refine ⟨m1, magic, ha, rfl, ?_⟩
    split at h
    · next hs =>
      obtain ⟨-, h⟩ := Prod.mk.inj (Except.ok.inj h)
      obtain ⟨rfl, rfl⟩ := Prod.mk.inj h
      exact Or.inl ⟨hs ▸ hsw, rfl, rfl⟩
    · split at h
      · next hne =>
        obtain ⟨-, h⟩ := Prod.mk.inj (Except.ok.inj h)
        obtain ⟨rfl, rfl⟩ := Prod.mk.inj h
        exact Or.inl ⟨hne, rfl, rfl⟩
      · next hmagic =>
        refine Or.inr ⟨not_not.mp hmagic, ?_⟩
        split at h
        · exact absurd h (by simp)
        · next s1 hs1 => exact ⟨s1, hs1, h⟩

/-! ## the nodes -/

/-- the inode of a directory; it has no data, and `data_crc` is zero -/
def dirInode (big : Bool) (ino : UInt32) : List UInt8 :=
  inodeHdr big ⟨dirMode, 0, 0, 0, 0⟩ ino 1 0 []

def addDir (v : Jenv) (name : List UInt8) (parent : UInt32) (s : Jst) : Option (UInt32 × Jst) := do
  let (inode, s) ← addDirent v name dtDir parent s
  let s ← if rbytes v s < inodeLen then pad v v.E s else some s
  let s ← prepEraseblock v s
  let s ← addData v (dirInode v.big inode) s
  let s ← pad v 4 s
  some (inode, s)

/-- the inode of `add_dir`, behind the room test -/
def placeDir (v : Jenv) (inode : UInt32) (s : Jst) : Option (UInt32 × Jst) := do
  let s ← prepEraseblock v s
  let s ← addData v (dirInode v.big inode) s
  let s ← pad v 4 s
  some (inode, s)

theorem addDir_eq (v : Jenv) (name : List UInt8) (parent : UInt32) (s : Jst) :
    addDir v name parent s = (addDirent v name dtDir parent s).bind fun r =>
      (if rbytes v r.2 < inodeLen then pad v v.E r.2 else some r.2).bind (placeDir v r.1) := by
  unfold addDir
  cases addDirent v name dtDir parent s with
  | none => rfl
  | some r =>
    obtain ⟨inode, s⟩ := r
    simp only [Option.bind_eq_bind, Option.bind_some]
    split <;> rfl

/-- what follows the last `/` -/
def basename (path : List UInt8) : List UInt8 := (path.reverse.takeWhile (· ≠ 0x2f)).reverse

/-- `add_file`: without the file nothing is added, and a file that cannot be opened gets an entry -/
def tryAddFile {E : Nat} (c : Job E) (parent : UInt32) (s : Jst) : Option Jst :=
  match c.stat with
  | none => some s
  | some st => do
    let (inode, s) ← addDirent c.env (basename c.filename) dtReg parent s
    match c.content with
    | none => some s
    | some content => addNodes c.env st inode (content.length + 1) content 0 s

/-- the buffer is empty, and inode number 1 is taken -/
def Jst.ready (s : Jst) : Jst :=
  { s with ofs := 0, out := [], lastIno := if s.lastIno = 0 then 1 else s.lastIno }

/-- the part between `lseek` and `err = 0` -/
def appendNodes {E : Nat} (c : Job E) (s : Jst) : Option Jst := do
  let s := s.ready
  let s ← if s.targetIno = 0 then
      (addDir c.env c.dir 1 s).map fun (inode, s) => { s with targetIno := toInt inode }
    else some s
  let s ← tryAddFile c (word s.targetIno) s
  let s ← pad c.env E s
  let s ← addData c.env jffs2Eof s
  pad c.env E s

/-! ## the whole -/

/-- behind the loop: back over the last block that was read -/
def appendAt {E : Nat} (c : Job E) (d : Dev E) (mtdofs : Int) (s : Jst) : Except Halt (Dev E) :=
  match appendNodes c s with
  | none => .error .fault
  | some s => (flushAll s.out { d with pos := mtdofs.toNat } mtdofs).map Prod.fst

/-- up to `err = 0`; the results of the device operations are not looked at -/
def writeNodes {E : Nat} (c : Job E) (d : Dev E) : Except Halt (Int × Dev E) := do
  let (e, mtdofs, s) ← scanFs c.env c.dir (blocks E d.mem) 0 (statics c.dir)
  match e with
  | .free => do
    let d ← appendAt c d (mtdofs - E) s
    .ok (0, d)
  | _ => .ok (-1, d)

def mtdWriteJffs2 {E : Nat} (c : Job E) (d : Dev E) : Except Halt (Int × Dev E) := do
  let (err, d) ← writeNodes c d
  .ok (err, if err = 0 then c.fixup d else d)

end Mtd
