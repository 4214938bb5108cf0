import Firmware.Lib.Crc

/-!
# trx

`trx` puts files and zeros behind a header, all in one buffer of `maxlen` bytes.  This is the tool
without `-2`, `-F`, `-x` and `-m`, on a little-endian host.

* `step`           an option: `-f` and `-A` read a file, `-a` and `-b` fill up with zeros;
* `finish`         the rest of the header, and the image;
* `main`           the tool; `outside` is an access that is not inside the buffer.
-/

set_option linter.unusedVariables false

namespace Trx
open Img Word

def trxMagic : UInt32 := 0x30524448
/-- `TRX_MAX_LEN` -/
def maxlen : Nat := 0x720000

/-- the number of the values of `size_t` and of `unsigned long` -/
structure Host where
  size : Nat
  le_size : 4294967296 ≤ size

def lp64 : Host := ⟨18446744073709551616, by decide⟩

/-- a difference of two `size_t` -/
def Host.sub (h : Host) (a b : Nat) : Nat := (a + (h.size - b)) % h.size

/-- what `malloc(maxlen)` returns, with any content -/
structure Buf where
  bytes : List UInt8
  length_eq : bytes.length = maxlen

/-- an option with its argument: the content of a file that can be opened, a number if it is one -/
inductive Opt where
  | f (content : Option (List UInt8))
  | A (content : Option (List UInt8))
  | a (n : Option Nat)
  | b (n : Option Nat)

/-- the buffer and the variables of `main`; `opened` is `in != NULL` -/
structure St where
  buf : List UInt8
  curLen : Nat
  i : Nat
  opened : Bool

/-- `failure` is `EXIT_FAILURE` -/
inductive Res (α : Type) where
  | outside
  | failure
  | ok (a : α)

namespace Res

def bind {α β : Type} : Res α → (α → Res β) → Res β
  | outside, _ => outside
  | failure, _ => failure
  | ok a, f => f a

theorem bind_eq_ok {α β : Type} {x : Res α} {f : α → Res β} {b : β} :
    x.bind f = ok b ↔ ∃ a, x = ok a ∧ f a = ok b := by
  cases x with
  | outside => exact iff_of_false (by simp [bind]) (by simp)
  | failure => exact iff_of_false (by simp [bind]) (by simp)
  | ok a =>
    constructor
    · exact fun h => ⟨a, rfl, h⟩
    · rintro ⟨a', ha, hf⟩
      obtain rfl := ok.inj ha
      exact hf

/-- the rest, if the access is inside -/
def inside {α β : Type} (m : Option α) (f : α → Res β) : Res β :=
  match m with
  | none => outside
  | some a => f a

end Res

/-- no byte is no access -/
def write (m : List UInt8) (off : Nat) (d : List UInt8) : Option (List UInt8) :=
  if d.length = 0 then some m else store m off d

def uint32 (n : Nat) : Nat := n % 4294967296

/-- `memset(buf + cur_len, 0, n); cur_len += n;` -/
def fill (s : St) (n : Nat) : Res St :=
  .inside (write s.buf s.curLen (zeros n)) fun buf => .ok { s with buf, curLen := uint32 (s.curLen + n) }

/-- what is missing to a multiple of `k` -/
def missing (k n : Nat) : Nat := if n % k = 0 then 0 else k - n % k

/-- the file behind `-f` and `-A` -/
def readFile (h : Host) (s : St) : Option (List UInt8) → Res St
  | none => .failure
  | some content =>
    let room := h.sub maxlen s.curLen
    .inside (write s.buf s.curLen (content.take room)) fun buf =>
      -- `feof` after a read that asked for more
      if content.length < room then
        .inside (write buf (s.curLen + content.length) (zeros (missing 4 content.length))) fun buf =>
          .ok { s with
            buf
            curLen := uint32 (s.curLen + (content.length + missing 4 content.length))
            opened := true }
      else .failure

/-- the place of `offsets[i]` -/
def slot (i : Nat) : Nat := 16 + 4 * i

def step (h : Host) (s : St) : Opt → Res St
  | .f content =>
    .inside (store s.buf (slot s.i) (put32 false (UInt32.ofNat s.curLen))) fun buf =>
      readFile h { s with buf, i := s.i + 1 } content
  | .A content => readFile h s content
  | .a none => .failure
  | .a (some n) =>
    let r := s.curLen &&& h.sub n 1
    if r ≠ 0 then fill s (h.sub n r) else .ok s
  | .b none => .failure
  | .b (some n) => if n < s.curLen then .ok s else fill s (n - s.curLen)

def run (h : Host) (s : St) : List Opt → Res St
  | [] => .ok s
  | o :: os => (step h s o).bind fun s => run h s os

def crc32buf (buf : List UInt8) : UInt32 := Crc.block Crc.table32 0xffffffff buf

/-- behind the options; `fwrite` says that the image can be written -/
def finish (h : Host) (fwrite : Bool) (s : St) : Res (List UInt8) :=
  .inside (store s.buf 12 (put32 false 0x10000)) fun buf =>
    if s.opened then
      (fill { s with buf } (missing 4096 s.curLen)).bind fun s =>
        .inside (load s.buf 12 (h.sub s.curLen 12)) fun d =>
          .inside (store s.buf 8 (put32 false (crc32buf d))) fun buf =>
            .inside (store buf 4 (put32 false (UInt32.ofNat s.curLen))) fun buf =>
              .inside (load buf 0 s.curLen) fun image => if fwrite then .ok image else .failure
    else .failure

/-- the state in front of the options -/
def start (buf : Buf) : St := ⟨poke buf.bytes 0 (put32 false trxMagic), 28, 0, false⟩

def main (h : Host) (malloc : Option Buf) (fwrite : Bool) (opts : List Opt) : Res (List UInt8) :=
  match malloc with
  | none => .failure
  | some buf => (run h (start buf) opts).bind (finish h fwrite)

end Trx
