import Mathlib.Data.List.DropRight
import Firmware.Lib.Decimal
import Firmware.Bqtool.Gauge

/-!
# bqtool: bqfs files

`bqfs_flash` from the first line on, with the functions under it.  `none` is what C leaves open: an
access outside of a buffer, a read before the line, `strtoul(NULL)`, or a pointer that `realloc` has
made invalid.

* `Config`, `Input`, `Alloc` the options, the file, and what `realloc` does;
* `readLine`, `getItem`, `extractHexByteStream`, `bqfsGetCmd` lines and commands;
* `bqfsExecCmd`, `execTries`, `flashLoop`, `bqfsFlash` their execution.
-/

set_option linter.unusedVariables false

namespace Bqtool
open Img Scanf

inductive Mode
  | HDQ | I2C
deriving DecidableEq

structure Config where
  mode : Mode
  /-- 0 if there is none -/
  maxBlockLen : Int
  ulongMax : Nat

/-- `cmd_base_len` -/
def Config.base (cfg : Config) : Nat := if cfg.mode = .HDQ then 1 else 2

def BQFS_MAX_DATA_BLOCK_LEN : Int := 96 + 4

/-- a `uint8_t` -/
def Config.maxLen (cfg : Config) : UInt8 :=
  UInt8.ofInt ((if cfg.maxBlockLen = 0 then BQFS_MAX_DATA_BLOCK_LEN else cfg.maxBlockLen) + cfg.base)

def Config.maxLineLen (cfg : Config) : Nat := (cfg.maxLen.toNat + 2) * 3

/-- the bytes before the end of the file, or before a read error -/
structure Input where
  bytes : List UInt8
  error : Bool

/-- whether `realloc` gives the same address again, in each call of `read_line` -/
abbrev Alloc := Nat → Bool

/-! ## `read_line` -/

structure File where
  bytes : List UInt8
  error : Bool
  /-- how often `read_line` has been called -/
  calls : Nat
  /-- `line_buf` has been freed -/
  moved : Bool

/-- the loop: the line, the bytes behind it, and whether the buffer has moved -/
def readLoop (maxLineLen : Nat) (error inPlace : Bool) :
    List UInt8 → List UInt8 → Bool → List UInt8 × List UInt8 × Bool
  | [], lineBuf, moved => (if error then [] else lineBuf, [], moved)
  | c :: bytes, lineBuf, moved =>
    if (c = 13 ∨ c = 10 ∨ c = 9 ∨ c = 32) ∧ lineBuf.length = 0 then
      readLoop maxLineLen error inPlace bytes lineBuf moved
    else if c = 13 ∨ c = 10 then (lineBuf, bytes, moved)
    else
      let lineBuf := lineBuf ++ [c]
      if lineBuf.length = maxLineLen then
        readLoop maxLineLen error inPlace bytes lineBuf (moved || !inPlace)
      else if lineBuf.length = maxLineLen * 2 then ([], bytes, moved)
      else readLoop maxLineLen error inPlace bytes lineBuf moved

/-- the inner `none` is NULL; the line is what is before its first NUL -/
def readLine (alloc : Alloc) (cfg : Config) (file : File) : Option (Option (List UInt8) × File) :=
  if file.moved then none
  else
    let (lineBuf, bytes, moved) :=
      readLoop cfg.maxLineLen file.error (alloc file.calls) file.bytes [] false
    let file := { file with bytes, calls := file.calls + 1, moved }
    some (if lineBuf.length + 1 < 2 then none else some (lineBuf.takeWhile (· ≠ 0)), file)

/-! ## `bqfs_get_cmd` -/

def isBlank (c : UInt8) : Bool := c = 32 ∨ c = 9

def skipLeadingWhitespaces (str : List UInt8) : List UInt8 := str.dropWhile isBlank

/-- `get_delim_separated_item`: the item, and what `*str` is afterwards.  The item is cut back to what is
no white space, and if there is nothing before its beginning. -/
def getItem (str : Option (List UInt8)) (delim : UInt8) :
    Option (Option (List UInt8) × Option (List UInt8)) :=
  match str with
  | none => some (none, none)
  | some str =>
    let start := skipLeadingWhitespaces str
    match start.dropWhile (· ≠ delim) with
    | [] => some (some start, none)
    | _ :: behind =>
      let item := (start.takeWhile (· ≠ delim)).rdropWhile fun c => isBlank c || c = 10
      if item = [] then none else some (some item, some behind)

/-- the loop of `extract_hex_byte_stream`; `n` bounds the items that are left -/
def extractLoop (cfg : Config) (maxLen : Nat) : Nat → Option (List UInt8) → List UInt8 → Nat →
    Option (Nat × Option (List UInt8) × List UInt8)
  | 0, _, _, _ => none
  | n + 1, str, buf, i => do
    let (tok, str) ← getItem str 32
    match tok with
    | none => some (i, str, buf)
    | some tok =>
      if i < maxLen then
        let (val, tmp) := strtoul16 cfg.ulongMax tok
        if tmp = tok then some (0, str, buf)
        else do
          let buf ← store buf i [UInt8.ofNat val]
          extractLoop cfg maxLen n str buf (i + 1)
      else some (i, str, buf)

/-- every item but the last takes up a byte of the text -/
def extractHexByteStream (cfg : Config) (str : Option (List UInt8)) (buf : List UInt8) (maxLen : Nat) :
    Option (Nat × Option (List UInt8) × List UInt8) :=
  extractLoop cfg maxLen ((str.getD []).length + 2) str buf 0

structure Cmd where
  cmd : UInt8
  len : UInt8
  delay : UInt16
  buf : List UInt8

def toupper (c : UInt8) : UInt8 := if 97 ≤ c ∧ c ≤ 122 then c - 32 else c

/-- the first line that is no comment; `n` bounds the lines -/
def nextLine (alloc : Alloc) (cfg : Config) : Nat → File → Option (Option (List UInt8) × File)
  | 0, _ => none
  | n + 1, file => do
    match ← readLine alloc cfg file with
    | (some buf, file) => if buf.head? = some 59 then nextLine alloc cfg n file else some (some buf, file)
    | (none, file) => some (none, file)

/-- the `switch` of `bqfs_get_cmd` -/
def parseCmd (cfg : Config) (cmd : Cmd) (buf : Option (List UInt8)) : Option (Int × Cmd) :=
  if cmd.cmd = 82 then do
    let (ret, str, out) ← extractHexByteStream cfg buf cmd.buf cfg.base
    if ret ≠ cfg.base then some (-1, { cmd with buf := out })
    else do
      let str ← str
      let (val, tmp) := strtoul cfg.ulongMax str
      let len := UInt8.ofNat val
      let cmd := { cmd with buf := out, len }
      some (if str = tmp ∨ val ≠ len.toNat then -1 else 1, cmd)
  else if cmd.cmd = 87 ∨ cmd.cmd = 67 then do
    let (ret, _, out) ← extractHexByteStream cfg buf cmd.buf cfg.maxLen.toNat
    let len := UInt8.ofNat ret
    some (if len.toNat < cfg.base + 1 then -1 else 1, { cmd with buf := out, len })
  else if cmd.cmd = 88 then do
    let str ← buf
    let (val, tmp) := strtoul cfg.ulongMax str
    let delay := UInt16.ofNat val
    some (if str = tmp ∨ val ≠ delay.toNat then -1 else 1, { cmd with delay })
  else some (-1, cmd)

/-- `bqfs_get_cmd` behind its loop -/
def parseLine (cfg : Config) (cmd : Cmd) (buf : List UInt8) : Option (Int × Cmd) := do
  let (tok, buf) ← getItem (some buf) 58
  match tok with
  | some [t] => parseCmd cfg { cmd with cmd := toupper t } buf
  | _ => some (-1, cmd)

def bqfsGetCmd (alloc : Alloc) (cfg : Config) (file : File) (cmd : Cmd) : Option (Int × File × Cmd) := do
  match ← nextLine alloc cfg (file.bytes.length + 1) file with
  | (none, file) => some (0, file, cmd)
  | (some buf, file) => do
    let (ret, cmd) ← parseLine cfg cmd buf
    some (ret, file, cmd)

/-! ## `bqfs_exec_cmd` -/

section
variable {σ : Type} (bus : Bus σ) (cfg : Config)

/-- the gauge, and `gauge->slave_addr` -/
structure Link (σ : Type) where
  dev : σ
  slaveAddr : UInt8

/-- an access to as many bytes of a buffer -/
def reaches (buf : List UInt8) (n : Nat) : Option Unit := if n ≤ buf.length then some () else none

def bqfsExecCmd (link : Link σ) (cmd : Cmd) : Option (Bool × Link σ × Cmd) := do
  reaches cmd.buf 1
  let addr := cmd.buf.getD 0 0
  let pos := cfg.base - 1
  let dataLen := cmd.len - UInt8.ofNat cfg.base
  if cmd.cmd = 82 then do
    reaches cmd.buf (pos + 1 + dataLen.toNat)
    let (ok, buf, dev) := doRead bus addr link.dev cmd.buf pos dataLen
    some (ok, ⟨dev, addr⟩, { cmd with buf })
  else if cmd.cmd = 87 then do
    reaches cmd.buf (pos + 1 + dataLen.toNat)
    let (ok, dev) := doWrite bus addr link.dev cmd.buf pos dataLen
    some (ok, ⟨dev, addr⟩, cmd)
  else if cmd.cmd = 67 then do
    reaches cmd.buf (pos + 1 + dataLen.toNat)
    let tmpBuf ← store (List.replicate cfg.maxLen.toNat 0) 0 [cmd.buf.getD pos 0]
    reaches tmpBuf (1 + dataLen.toNat)
    let (ok, tmpBuf, dev) := doRead bus addr link.dev tmpBuf 0 dataLen
    some (ok && slice tmpBuf 1 dataLen.toNat == slice cmd.buf (pos + 1) dataLen.toNat, ⟨dev, addr⟩, cmd)
  else if cmd.cmd = 88 then some (true, ⟨bus.sleepMs link.dev cmd.delay.toNat, addr⟩, cmd)
  else some (false, ⟨link.dev, addr⟩, cmd)

/-- `n` tries, or as many as it takes -/
def execTries : Nat → Link σ → Cmd → Option (Bool × Link σ × Cmd)
  | 0, link, cmd => some (false, link, cmd)
  | n + 1, link, cmd => do
    let (ok, link, cmd) ← bqfsExecCmd bus cfg { link with dev := bus.sleepMs link.dev 20 } cmd
    if ok then some (true, link, cmd) else execTries n link cmd

/-! ## `bqfs_flash` -/

variable (reset : UInt8 → σ → σ) (alloc : Alloc)

/-- `ret` at the label `end`; `n` bounds the commands, `reset` does nothing without `--reset` -/
def flashLoop : Nat → File → Cmd → Link σ → Option (Int × File × σ)
  | 0, _, _, _ => none
  | n + 1, file, cmd, link => do
    let (ret, file, cmd) ← bqfsGetCmd alloc cfg file cmd
    if 0 < ret then do
      let (ok, link, cmd) ← execTries bus cfg 3 link cmd
      if ok then flashLoop n file cmd link else some (-1, file, link.dev)
    else some (if ret = 0 then 1 else 0, file, reset link.slaveAddr link.dev)

/-- `free_file` frees `line_buf` -/
def flashEnd : Int × File × σ → Option (Int × σ)
  | (ret, file, dev) => if file.moved then none else some (ret, dev)

/-- `buf` is what was in the memory of `cmd->buf`; the other fields are set before they are read -/
def bqfsFlash (input : Input) (buf : Vector UInt8 cfg.maxLen.toNat) (link : Link σ) : Option (Int × σ) := do
  let r ← flashLoop bus cfg reset alloc (input.bytes.length + 1) ⟨input.bytes, input.error, 0, false⟩
    ⟨0, 0, 0, buf.toList⟩ link
  flashEnd r

end

end Bqtool
