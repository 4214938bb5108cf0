import Firmware.Lib.Run
import Firmware.Mtd.Jffs2

/-!
# mtd: `mtd_write`

The write loop as a machine: `St` holds the variables of `mtd_write` and the buffer, `step` is one
turn of one of its loops.

* `fill`    read the image until the buffer holds an erase block;
* `check`   pad the block; drop it while `skip` is positive; append the jffs2 file at the marker;
* `erase`   one turn of the erase loop: skip a bad block, erase a good one, or go on with the next
            device when that fails;
* `write`   write the buffer.

`exit` is `exit(1)`, `fault` is undefined behaviour: an access outside a buffer, the overflow of an
`int`.
-/

set_option linter.unusedVariables false

namespace Mtd
open Img Word CInt

variable {E : Nat}

/-- `enum mtd_image_format` -/
inductive Format where
  | unknown
  | trx
  | seama
  | wrgg03
deriving DecidableEq

/-- the options, what `image_check` found, the functions linked in, and the environment -/
structure Cfg (E : Nat) where
  big : Bool
  noErase : Bool
  partOffset : Nat
  jffs2SkipBytes : Int
  jffs2dir : List UInt8
  imageformat : Format
  fixup : Format → Option (Dev E → Option (Dev E))
  junk : List UInt8
  sched : Nat → Nat

inductive Pc where
  | fill
  | check
  | erase
  | write
deriving DecidableEq

structure St (E : Nat) where
  pc : Pc
  img : List UInt8
  reads : Nat
  buf : List UInt8
  buflen : Nat
  w : Int
  e : Int
  skip : Int
  skipBadBlocks : Int
  offset : Nat
  left : List (Dev E)
  dev : Dev E
  next : List (Dev E)
  jffs2file : Option File
  replaced : Bool
  jst : Jst

/-- the devices at the end -/
inductive Outcome (E : Nat) where
  | ret (devs : List (Dev E))
  | exit (devs : List (Dev E))
  | fault

def St.devs (s : St E) : List (Dev E) := s.left ++ s.dev :: s.next

/-! ## the jffs2 file -/

/-- how the program stops in the middle: `exit(1)`, or undefined behaviour -/
inductive Halt where
  | exit
  | fault

/-- a run that gets to its end got through its first part -/
theorem bind_ok {α β : Type} {x : Except Halt α} {f : α → Except Halt β} {r : β}
    (h : x >>= f = .ok r) : ∃ a, x = .ok a ∧ f a = .ok r := by
  cases x with
  | error e => exact absurd h (by simp [bind, Except.bind])
  | ok a => exact ⟨a, rfl, h⟩

/-- `mtdofs += erasesize;` -/
def advance (E : Nat) (mtdofs : Int) : Except Halt Int :=
  match intAdd mtdofs E with
  | some mtdofs => .ok mtdofs
  | none => .error .fault

/-- the loop of `pad` over bad blocks; on a device of `n` blocks it has at most `n` turns -/
def skipBad : Nat → Dev E → Int → Except Halt (Dev E × Int)
  | 0, d, mtdofs => .ok (d, mtdofs)
  | fuel + 1, d, mtdofs =>
    match blockIsBad d mtdofs with
    | none => .error .exit
    | some bad =>
      if bad = true ∧ mtdofs < wrap d.mem.length then do
        let mtdofs ← advance E mtdofs
        skipBad fuel (seekCur d E) mtdofs
      else .ok (d, mtdofs)

/-- the device part of `pad`; the results of erase and write are not looked at -/
def flush (d : Dev E) (mtdofs : Int) (b : List UInt8) : Except Halt (Dev E × Int) := do
  let (d, mtdofs) ← skipBad (d.chip.nblocks + 1) d mtdofs
  let d := (eraseBlock d mtdofs).getD d
  let d := (write d b).2
  let mtdofs ← advance E mtdofs
  .ok (d, mtdofs)

def flushAll : List (List UInt8) → Dev E → Int → Except Halt (Dev E × Int)
  | [], d, mtdofs => .ok (d, mtdofs)
  | b :: bs, d, mtdofs => do
    let (d, mtdofs) ← flush d mtdofs b
    flushAll bs d mtdofs

/-! ## the loop -/

/-- `mtd_check_open`, and the seek to `part_offset` -/
def openDev (c : Cfg E) (d : Dev E) : Dev E := { d with pos := c.partOffset }

/-- the checksum of the image header is rewritten when a file was appended -/
def fixHeader (c : Cfg E) (s : St E) : Option (Dev E) :=
  if s.replaced then
    match c.imageformat with
    | .unknown => some s.dev
    | f =>
      match c.fixup f with
      | some g => g s.dev
      | none => some s.dev
  else some s.dev

def finish (c : Cfg E) (s : St E) : Outcome E :=
  match fixHeader c s with
  | some d => .ret (s.left ++ d :: s.next)
  | none => .fault

/-- one `read` of the image: at least one byte unless the file is at its end -/
def fillStep (c : Cfg E) (s : St E) : St E ⊕ Outcome E :=
  if s.buflen < E then
    let n := min (min (c.sched s.reads + 1) (E - s.buflen)) s.img.length
    if n = 0 then .inl { s with pc := .check }
    else
      match store s.buf s.buflen (s.img.take n) with
      | some buf =>
        .inl { s with buf := buf, buflen := s.buflen + n, img := s.img.drop n,
                      reads := s.reads + 1 }
      | none => .inr .fault
  else .inl { s with pc := .check }

/-- append the file here; `skip` counts the image blocks it replaces -/
def replaceStep (c : Cfg E) (f : File) (s : St E) : St E ⊕ Outcome E :=
  match encode ⟨E, c.big⟩ f c.junk { s.jst with out := [] } with
  | none => .inr .fault
  | some jst =>
    match flushAll jst.out s.dev (wrap s.e) with
    | .error .exit => .inr (.exit s.devs)
    | .error .fault => .inr .fault
    | .ok (dev, mtdofs) =>
      let skip := mtdofs - wrap s.e
      .inl { s with pc := .fill, dev := dev, jst := jst, jffs2file := none, replaced := true,
                    w := s.w + skip, e := s.e + skip, skip := skip - s.buflen, buflen := 0,
                    offset := 0 }

/-- the block in the buffer, padded -/
def blockStep (c : Cfg E) (s : St E) : St E ⊕ Outcome E :=
  if s.skip > 0 then .inl { s with pc := .fill, skip := s.skip - s.buflen, buflen := 0 }
  else
    match s.jffs2file with
    | none => .inl { s with pc := .erase }
    | some f =>
      if s.w ≥ c.jffs2SkipBytes then
        if s.buf.take 4 = jffs2Eof then replaceStep c f s
        else
          match parseJffs2data ⟨E, c.big⟩ c.jffs2dir s.buf s.jst with
          | some jst => .inl { s with pc := .erase, jst := jst }
          | none => .inr .fault
      else .inl { s with pc := .erase }

def checkStep (c : Cfg E) (s : St E) : St E ⊕ Outcome E :=
  if s.buflen = 0 then .inr (finish c s)
  else if s.buflen < E then
    match store s.buf s.buflen (List.replicate (E - s.buflen) 0xff) with
    | some buf => blockStep c { s with buf := buf, buflen := E }
    | none => .inr .fault
  else blockStep c s

/-- go on with the next device; `offset` and `skip_bad_blocks` are kept -/
def resume (c : Cfg E) (s : St E) (n : Dev E) (ns : List (Dev E)) : St E :=
  { s with pc := .fill, w := 0, e := 0, left := s.left ++ [s.dev], dev := openDev c n, next := ns }

/-- the block at `e` could not be erased -/
def eraseFailed (c : Cfg E) (s : St E) : St E ⊕ Outcome E :=
  match s.next with
  | [] => .inr (.exit s.devs)
  | n :: ns =>
    if s.w < s.e then
      match load s.buf s.offset (s.e - s.w).toNat with
      | some data =>
        .inl (resume c { s with dev := (write s.dev data).2, offset := (s.e - s.w).toNat } n ns)
      | none => .inr .fault
    else .inl (resume c s n ns)

/-- the body of the erase loop -/
def eraseTurn (c : Cfg E) (s : St E) : St E ⊕ Outcome E :=
  match blockIsBad s.dev s.e with
  | none => .inr (.exit s.devs)
  | some true =>
    match intAdd s.skipBadBlocks E with
    | some n => .inl { s with skipBadBlocks := n, e := s.e + E, dev := seekCur s.dev E }
    | none => .inr .fault
  | some false =>
    match eraseBlock s.dev s.e with
    | some dev => .inl { s with dev := dev, e := s.e + E }
    | none => eraseFailed c s

def eraseStep (c : Cfg E) (s : St E) : St E ⊕ Outcome E :=
  if c.noErase then .inl { s with pc := .write }
  else if s.w + s.buflen > s.e - s.skipBadBlocks then eraseTurn c s
  else .inl { s with pc := .write }

def writeStep (c : Cfg E) (s : St E) : St E ⊕ Outcome E :=
  match load s.buf s.offset s.buflen with
  | none => .inr .fault
  | some data =>
    if (write s.dev data).1 < s.buflen then .inr (.exit s.devs)
    else .inl { s with pc := .fill, dev := (write s.dev data).2, w := s.w + s.buflen, buflen := 0,
                       offset := 0 }

def step (c : Cfg E) (s : St E) : St E ⊕ Outcome E :=
  match s.pc with
  | .fill => fillStep c s
  | .check => checkStep c s
  | .erase => eraseStep c s
  | .write => writeStep c s

/-- the state at the first turn: `buflen` bytes of the image are in the buffer already -/
def start (c : Cfg E) (dev : Dev E) (next : List (Dev E)) (buf : List UInt8) (buflen : Nat)
    (img : List UInt8) (f : Option File) (jst : Jst) : St E where
  pc := .fill
  img := img
  reads := 0
  buf := buf
  buflen := buflen
  w := 0
  e := 0
  skip := 0
  skipBadBlocks := 0
  offset := 0
  left := []
  dev := openDev c dev
  next := next
  jffs2file := f
  replaced := false
  jst := jst

end Mtd
