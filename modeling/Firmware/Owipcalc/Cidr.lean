import Firmware.Lib.NetOrder
import Firmware.Lib.Carry

/-!
# owipcalc: the operations

The IP calculator `owipcalc.c`. An operation works on the address on top of the stack and pushes a
changed copy of it, or prints an answer.

* `Cidr f`            `struct cidr` of the family `f`;
* `State`             the stack, and what is printed;
* `cidrAdd4` …        the operations under their names; `none` is undefined behaviour: a shift by 32
                      or more, or an access outside an address.

The operations get addresses of their own family (`runop` sees to it), so their tests of `family`
are left out. An `int` wraps around, and `1 << 31` is its smallest value.
-/

namespace Owipcalc
open Word

inductive Family
  | inet
  | inet6
deriving DecidableEq

/-- `struct in6_addr` -/
structure In6 where
  bytes : List UInt8
  length_bytes : bytes.length = 16
deriving DecidableEq

/-- an IPv4 address is `s_addr`, as the host reads it -/
abbrev Family.Addr : Family → Type
  | .inet => UInt32
  | .inet6 => In6

structure Cidr (f : Family) where
  prefixLen : UInt32
  addr : f.Addr

/-! ## the state -/

/-- what `qprintf` prints -/
inductive Item
  | space
  | newline
  | flag (r : Bool)
  | count (n : UInt32)
  | text (f : Family) (addr : f.Addr)
  | slash (prefixLen : UInt32)

structure State where
  stack : List (Sigma Cidr)
  quiet : Bool
  printed : Bool
  out : List Item

def State.init : State := ⟨[], false, false, []⟩

/-- what an operation returns, and the state behind it -/
abbrev Result := Option (Bool × State)

namespace State

def qprintf (s : State) (i : Item) : State :=
  { s with out := if s.quiet then s.out else s.out ++ [i], printed := true }

/-- `if (printed) qprintf(" ");` -/
def sep (s : State) : State := if s.printed then s.qprintf .space else s

/-- a test prints what it returns -/
def answer (s : State) (r : Bool) : Bool × State := (r, s.sep.qprintf (.flag r))

def push {f : Family} (s : State) (a : Cidr f) : State := { s with stack := ⟨f, a⟩ :: s.stack }

theorem push_stack {f : Family} (s : State) (a : Cidr f) : (s.push a).stack = ⟨f, a⟩ :: s.stack := rfl

@[simp] theorem sep_stack (s : State) : s.sep.stack = s.stack := by
  unfold sep
  split <;> rfl

@[simp] theorem answer_stack (s : State) (r : Bool) : (s.answer r).2.stack = s.stack := sep_stack s

end State

/-- `1 << n` -/
def shl (n : UInt32) : Option UInt32 := if n < 32 then some (1 <<< n) else none

def cidrPop {f : Family} (_ : Cidr f) (s : State) : Result :=
  match s.stack with
  | [] => some (false, s)
  | _ :: stack => some (true, { s with stack := stack })

/-! ## IPv4 -/

section
variable (big : Bool)

def cidrAdd4 (a b : Cidr .inet) (s : State) : Result :=
  let x := ntohl big a.addr
  let y := ntohl big b.addr
  if x + y < x then some (false, s.push a)
  else some (true, s.push (f := .inet) ⟨a.prefixLen, htonl big (x + y)⟩)

def cidrSub4 (a b : Cidr .inet) (s : State) : Result :=
  let x := ntohl big a.addr
  let y := ntohl big b.addr
  if x - y > x then some (false, s.push a)
  else some (true, s.push (f := .inet) ⟨a.prefixLen, htonl big (x - y)⟩)

def cidrNetwork4 (a : Cidr .inet) (s : State) : Result := do
  let m ← shl (32 - a.prefixLen)
  some (true, s.push (f := .inet) ⟨32, a.addr &&& htonl big (~~~(m - 1))⟩)

def cidrBroadcast4 (a : Cidr .inet) (s : State) : Result := do
  let m ← shl (32 - a.prefixLen)
  some (true, s.push (f := .inet) ⟨32, a.addr ||| htonl big (m - 1)⟩)

def cidrContains4 (a b : Cidr .inet) (s : State) : Result := do
  let m ← shl (32 - a.prefixLen)
  let net1 := a.addr &&& htonl big (~~~(m - 1))
  let net2 := b.addr &&& htonl big (~~~(m - 1))
  some (s.answer (b.prefixLen ≥ a.prefixLen && net1 == net2))

def cidrNetmask4 (a : Cidr .inet) (s : State) : Result := do
  let m ← shl (32 - a.prefixLen)
  some (true, s.push (f := .inet) ⟨32, htonl big (~~~(m - 1))⟩)

def cidrPrivate4 (a : Cidr .inet) (s : State) : Result :=
  let x := ntohl big a.addr
  some (s.answer ((x ≥ 0x0A000000 && x ≤ 0x0AFFFFFF) || (x ≥ 0xAC100000 && x ≤ 0xAC1FFFFF) ||
    (x ≥ 0xC0A80000 && x ≤ 0xC0A8FFFF)))

def cidrLinklocal4 (a : Cidr .inet) (s : State) : Result :=
  let x := ntohl big a.addr
  some (s.answer (x ≥ 0xA9FE0000 && x ≤ 0xA9FEFFFF))

/-- the sum is taken in network order -/
def cidrPrev4 (a b : Cidr .inet) (s : State) : Result := do
  let m ← shl (32 - b.prefixLen)
  some (true, s.push (f := .inet) ⟨b.prefixLen, a.addr - htonl big m⟩)

def cidrNext4 (a b : Cidr .inet) (s : State) : Result := do
  let m ← shl (32 - b.prefixLen)
  some (true, s.push (f := .inet) ⟨b.prefixLen, a.addr + htonl big m⟩)

end

def cidr6to4 (a : Cidr .inet) (s : State) : Result :=
  let x := a.addr
  let n : List UInt8 := [0x20, 0x02, (x >>> 24).toUInt8, ((x >>> 16) &&& 0xFF).toUInt8,
    ((x >>> 8) &&& 0xFF).toUInt8, (x &&& 0xFF).toUInt8]
  some (true, s.push (f := .inet6) ⟨48, ⟨n ++ zeros 10, rfl⟩⟩)

def cidrPrint4 (a : Cidr .inet) (s : State) : Result :=
  let s := s.sep.qprintf (.text .inet a.addr)
  let s := if a.prefixLen < 32 then s.qprintf (.slash a.prefixLen) else s
  some (true, { s with stack := s.stack.tail })

/-! ## IPv6 -/

namespace In6

/-- `s6_addr[i]` -/
def get (x : In6) (i : Nat) : UInt8 := x.bytes.getD i 0

def set (x : In6) (i : Nat) (b : UInt8) : In6 :=
  ⟨x.bytes.set i b, by rw [List.length_set, x.length_bytes]⟩

/-- the loop over the bytes from `idx` down to 0 -/
def loop (x : In6) (digit : Nat → UInt8 → Bool → UInt8 × Bool) (idx : Nat) (carry : Bool) : In6 × Bool :=
  (⟨(Carry.loop digit idx x.bytes carry).1, by rw [Carry.loop_length, x.length_bytes]⟩,
    (Carry.loop digit idx x.bytes carry).2)

/-- `memset(…, 0, …)` -/
def zero : In6 := ⟨zeros 16, zeros_length 16⟩

/-- the last `k` bytes are cleared -/
def clear (x : In6) : Nat → In6
  | 0 => x
  | i + 1 => (clear x i).set (15 - i) 0

end In6

/-- `x += y + carry` -/
def addDigit (y : Nat → UInt8) (idx : Nat) (x : UInt8) (carry : Bool) : UInt8 × Bool :=
  (UInt8.ofNat (x.toNat + (y idx).toNat + carry.toNat),
    x.toNat + (y idx).toNat + carry.toNat ≥ 256)

/-- `x -= y + carry` -/
def subDigit (y : Nat → UInt8) (idx : Nat) (x : UInt8) (carry : Bool) : UInt8 × Bool :=
  (x - UInt8.ofNat ((y idx).toNat + carry.toNat), x.toNat < (y idx).toNat + carry.toNat)

def cidrAdd6 (a b : Cidr .inet6) (s : State) : Result :=
  let r := a.addr.loop (addDigit b.addr.get) 15 false
  some (!r.2, s.push (f := .inet6) { a with addr := r.1 })

def cidrSub6 (a b : Cidr .inet6) (s : State) : Result :=
  let r := a.addr.loop (subDigit b.addr.get) 15 false
  some (!r.2, s.push (f := .inet6) { a with addr := r.1 })

/-- `idx = (b->prefix - 1) / 8` -/
def stepIdx (b : Cidr .inet6) : Nat := ((b.prefixLen - 1) / 8).toUInt8.toNat

/-- the common part of `cidr_prev6` and `cidr_next6` -/
def cidrStep6 (digit : Nat → UInt8 → Bool → UInt8 × Bool) (a b : Cidr .inet6) (s : State) : Result :=
  if b.prefixLen = 0 then some (false, s.push a)
  else if stepIdx b < 16 then
    let r := a.addr.loop digit (stepIdx b) true
    if r.2 then some (false, s.push (f := .inet6) { a with addr := r.1 }) else some (true, s.push (f := .inet6) ⟨b.prefixLen, r.1⟩)
  else none

def cidrPrev6 : Cidr .inet6 → Cidr .inet6 → State → Result := cidrStep6 (subDigit fun _ => 0)

def cidrNext6 : Cidr .inet6 → Cidr .inet6 → State → Result := cidrStep6 (addDigit fun _ => 0)

def cidrNetwork6 (a : Cidr .inet6) (s : State) : Result :=
  let k := ((128 - a.prefixLen) / 8).toNat
  let m := (128 - a.prefixLen) % 8
  if k > 16 then none
  else
    let x := a.addr.clear k
    if m = 0 then some (true, s.push (f := .inet6) { a with addr := x })
    else if k > 15 then none
    else some (true, s.push (f := .inet6) { a with addr := x.set (15 - k) (x.get (15 - k) &&& ~~~((1 <<< m.toUInt8) - 1)) })

/-- the copy stays on the stack -/
def cidrContains6 (a b : Cidr .inet6) (s : State) : Result :=
  let s := s.push a
  let i := ((128 - a.prefixLen) / 8).toUInt8.toNat
  let m : UInt8 := ~~~((1 <<< ((128 - a.prefixLen) % 8).toUInt8) - 1)
  if i > 15 then none
  else
    let net1 := a.addr.get (15 - i) &&& m
    let net2 := b.addr.get (15 - i) &&& m
    some (s.answer (b.prefixLen ≥ a.prefixLen && net1 == net2 &&
      (i == 15 || a.addr.bytes.take (15 - i) == b.addr.bytes.take (15 - i))))

def cidrLinklocal6 (a : Cidr .inet6) (s : State) : Result :=
  some (s.answer (a.addr.get 0 == 0xFE && a.addr.get 1 ≥ 0x80 && a.addr.get 1 ≤ 0xBF))

def cidrUla6 (a : Cidr .inet6) (s : State) : Result :=
  some (s.answer (a.addr.get 0 ≥ 0xFC && a.addr.get 0 ≤ 0xFD))

def cidrPrint6 (a : Cidr .inet6) (s : State) : Result :=
  let s := s.sep.qprintf (.text .inet6 a.addr)
  let s := if a.prefixLen < 128 then s.qprintf (.slash a.prefixLen) else s
  some (true, { s with stack := s.stack.tail })

/-! ## either family -/

def cidrHowmany {f : Family} (a b : Cidr f) (s : State) : Result :=
  if b.prefixLen < a.prefixLen then some (true, s.sep.qprintf (.count 0))
  else do
    let n ← shl (b.prefixLen - a.prefixLen)
    some (true, s.sep.qprintf (.count n))

/-- the address on top itself is changed -/
def cidrPrefix {f : Family} (a b : Cidr f) (s : State) : Result :=
  some (true, { s with stack := ⟨f, { a with prefixLen := b.prefixLen }⟩ :: s.stack.tail })

def cidrQuiet {f : Family} (_ : Cidr f) (s : State) : Result := some (true, { s with quiet := true })

end Owipcalc
