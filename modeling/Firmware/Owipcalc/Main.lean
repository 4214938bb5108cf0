import Firmware.Lib.Run
import Firmware.Lib.Decimal
import Firmware.Owipcalc.Arith

/-!
# owipcalc: the command line

The arguments are parsed one operation at a time, against the address on top of the stack.

* `cidrParse`     an argument: a number, which is also the length of a prefix, or an address;
* `ops`           the table of the operations;
* `runop`         one turn of the loop of `main`;
* `finish`        what `main` does behind the loop.

`inet_pton` is a parameter. What is printed to `stderr` is left out.
-/

set_option linter.unusedVariables false

namespace Owipcalc
open Word CStr

/-- the host: its byte order, `ULONG_MAX`, and `inet_pton`, for IPv4 as a number -/
structure Host where
  big : Bool
  ulongMax : Nat
  pton4 : List UInt8 → Option UInt32
  pton6 : List UInt8 → Option In6

/-! ## parsing -/

/-- `for (prefix = 0; mask; mask >>= 1) prefix += (mask & 1);`, at most `k` times -/
def ones : Nat → UInt32 → UInt32
  | 0, _ => 0
  | k + 1, mask => (mask &&& (1 : UInt32)) + ones k (mask >>> (1 : UInt32))

/-- the text in front of the first `/`, and behind it -/
def cut (s : List UInt8) : List UInt8 × Option (List UInt8) :=
  match s.dropWhile (· ≠ 47) with
  | [] => (s, none)
  | _ :: p => (s.takeWhile (· ≠ 47), some p)

/-- the length of a prefix in decimal -/
def parsePrefix (h : Host) (width : UInt32) (p : List UInt8) : Option UInt32 :=
  let r := Scanf.strtoul h.ulongMax p
  if r.2.length = p.length ∨ r.2 ≠ [] ∨ UInt32.ofNat r.1 > width then none else some (UInt32.ofNat r.1)

def cidrParse4 (h : Host) (s : CStr) : Option (Cidr .inet) :=
  if s.length ≥ 33 then none
  else
    let (addr, p) := cut s.bytes
    let len := match p with
      | some p =>
        if 46 ∈ p then (h.pton4 p).map fun mask => ones 32 (htonl h.big mask) else parsePrefix h 32 p
      | none => some 32
    len.bind fun len =>
      if addr = [] ∧ p.isSome then some ⟨len, 0⟩
      else (h.pton4 addr).map fun x => ⟨len, htonl h.big x⟩

def cidrParse6 (h : Host) (s : CStr) : Option (Cidr .inet6) :=
  if s.length ≥ 51 then none
  else
    let (addr, p) := cut s.bytes
    let len := match p with
      | some p => parsePrefix h 128 p
      | none => some 128
    len.bind fun len =>
      if addr = [] ∧ p.isSome then some ⟨len, In6.zero⟩
      else (h.pton6 addr).map fun x => ⟨len, x⟩

/-- either family, by the colon -/
def parseAddr (h : Host) (s : CStr) : Option (Sigma Cidr) :=
  if 58 ∈ s.bytes then (cidrParse6 h s).map fun a => ⟨.inet6, a⟩ else (cidrParse4 h s).map fun a => ⟨.inet, a⟩

/-- the address of a number -/
def numberAddr (big : Bool) : (f : Family) → UInt32 → f.Addr
  | .inet, sum => htonl big sum
  | .inet6, sum => ⟨Bits.toBytes 16 sum.toNat, Bits.toBytes_length 16 _⟩

/-- an address, `NULL`, or an address of the other family: `exit(4)` -/
inductive Parsed (f : Family)
  | ok (c : Cidr f)
  | null
  | exit

def cidrParse (h : Host) (s : CStr) (afHint : Family) : Parsed afHint :=
  let r := Scanf.strtoul0 h.ulongMax s.bytes
  if r.2.length < s.length ∧ r.2 = [] then
    .ok ⟨UInt32.ofNat r.1, numberAddr h.big afHint (UInt32.ofNat r.1)⟩
  else
    match afHint, parseAddr h s with
    | _, none => .null
    | .inet, some ⟨.inet, c⟩ => .ok c
    | .inet6, some ⟨.inet6, c⟩ => .ok c
    | _, _ => .exit

/-! ## the table -/

structure Funcs (f : Family) where
  a1 : Option (Cidr f → State → Result)
  a2 : Option (Cidr f → Cidr f → State → Result)

/-- `struct op`, without the description -/
structure Op where
  name : List UInt8
  f4 : Funcs .inet
  f6 : Funcs .inet6

def Op.funcs (op : Op) : (f : Family) → Funcs f
  | .inet => op.f4
  | .inet6 => op.f6

/-- an operation with an argument -/
def Op.binary (op : Op) : Bool := op.f4.a2.isSome || op.f6.a2.isSome

def one {f : Family} (g : Cidr f → State → Result) : Funcs f := ⟨some g, none⟩
def two {f : Family} (g : Cidr f → Cidr f → State → Result) : Funcs f := ⟨none, some g⟩
def unsupported {f : Family} : Funcs f := ⟨none, none⟩

def nameAdd : List UInt8 := ascii ['a', 'd', 'd']
def nameSub : List UInt8 := ascii ['s', 'u', 'b']
def nameNext : List UInt8 := ascii ['n', 'e', 'x', 't']
def namePrev : List UInt8 := ascii ['p', 'r', 'e', 'v']
def nameNetwork : List UInt8 := ascii ['n', 'e', 't', 'w', 'o', 'r', 'k']
def nameBroadcast : List UInt8 := ascii ['b', 'r', 'o', 'a', 'd', 'c', 'a', 's', 't']
def namePref : List UInt8 := ascii ['p', 'r', 'e', 'f', 'i', 'x']
def nameNetmask : List UInt8 := ascii ['n', 'e', 't', 'm', 'a', 's', 'k']
def name6to4 : List UInt8 := ascii ['6', 't', 'o', '4']
def nameHowmany : List UInt8 := ascii ['h', 'o', 'w', 'm', 'a', 'n', 'y']
def nameContains : List UInt8 := ascii ['c', 'o', 'n', 't', 'a', 'i', 'n', 's']
def namePrivate : List UInt8 := ascii ['p', 'r', 'i', 'v', 'a', 't', 'e']
def nameLinklocal : List UInt8 := ascii ['l', 'i', 'n', 'k', 'l', 'o', 'c', 'a', 'l']
def nameUla : List UInt8 := ascii ['u', 'l', 'a']
def nameQuiet : List UInt8 := ascii ['q', 'u', 'i', 'e', 't']
def namePop : List UInt8 := ascii ['p', 'o', 'p']
def namePrint : List UInt8 := ascii ['p', 'r', 'i', 'n', 't']

def ops (big : Bool) : List Op :=
  [⟨nameAdd, two (cidrAdd4 big), two cidrAdd6⟩,
    ⟨nameSub, two (cidrSub4 big), two cidrSub6⟩,
    ⟨nameNext, two (cidrNext4 big), two cidrNext6⟩,
    ⟨namePrev, two (cidrPrev4 big), two cidrPrev6⟩,
    ⟨nameNetwork, one (cidrNetwork4 big), one cidrNetwork6⟩,
    ⟨nameBroadcast, one (cidrBroadcast4 big), unsupported⟩,
    ⟨namePref, two cidrPrefix, two cidrPrefix⟩,
    ⟨nameNetmask, one (cidrNetmask4 big), unsupported⟩,
    ⟨name6to4, one cidr6to4, unsupported⟩,
    ⟨nameHowmany, two cidrHowmany, two cidrHowmany⟩,
    ⟨nameContains, two (cidrContains4 big), two cidrContains6⟩,
    ⟨namePrivate, one (cidrPrivate4 big), unsupported⟩,
    ⟨nameLinklocal, one (cidrLinklocal4 big), one cidrLinklocal6⟩,
    ⟨nameUla, unsupported, one cidrUla6⟩,
    ⟨nameQuiet, one cidrQuiet, one cidrQuiet⟩,
    ⟨namePop, one cidrPop, one cidrPop⟩,
    ⟨namePrint, one cidrPrint4, one cidrPrint6⟩]

/-! ## the loop -/

/-- the arguments that are left, the status and the state -/
structure Config where
  args : List CStr
  status : Nat
  state : State

/-- how the program ends; `segv` is a read through the empty stack -/
inductive Outcome
  | exit (status : Nat) (s : State)
  | segv
  | undefined

/-- `runop` returns true or false, or the program ends -/
inductive Turn
  | more (c : Config)
  | stop (c : Config)
  | done (o : Outcome)

/-- what an operation has returned -/
def returned (args : List CStr) : Result → Turn
  | some (r, s) => .more ⟨args, if r then 0 else 1, s⟩
  | none => .done .undefined

def runop (h : Host) (c : Config) : Turn :=
  match c.args with
  | [] => .stop c
  | arg1 :: args =>
    match (ops h.big).find? (fun op => op.name == arg1.bytes) with
    | none => .stop c
    | some op =>
      if op.binary then
        match args with
        | [] => .stop { c with status := 2 }
        | arg2 :: args =>
          match c.state.stack with
          | [] => .done .segv
          | ⟨f, a⟩ :: _ =>
            match cidrParse h arg2 f with
            | .exit => .done (.exit 4 c.state)
            | .null => .stop { c with status := 3 }
            | .ok b =>
              match (op.funcs f).a2 with
              | none => .stop { c with args := args, status := 5 }
              | some g => returned args (g a b c.state)
      else
        match c.state.stack with
        | [] => .done .segv
        | ⟨f, a⟩ :: _ =>
          match (op.funcs f).a1 with
          | none => .stop { c with args := args, status := 5 }
          | some g => returned args (g a c.state)

def cidrPrint : (f : Family) → Cidr f → State → Result
  | .inet => cidrPrint4
  | .inet6 => cidrPrint6

def finish (c : Config) : Outcome :=
  if c.args ≠ [] then .exit 6 c.state
  else if !c.state.printed && c.status < 2 then
    match c.state.stack with
    | [] => .segv
    | ⟨f, a⟩ :: _ =>
      match cidrPrint f a c.state with
      | some (_, s) => .exit c.status (s.qprintf .newline)
      | none => .undefined
  else .exit c.status (c.state.qprintf .newline)

def step (h : Host) (c : Config) : Config ⊕ Outcome :=
  match runop h c with
  | .more c => .inl c
  | .stop c => .inr (finish c)
  | .done o => .inr o

/-- the command line up to the loop; without a result it is answered with the usage, `exit(1)` -/
def start (h : Host) (base : CStr) (args : List CStr) : Option Config :=
  if args = [] then none
  else (parseAddr h base).map fun a => ⟨args, 0, { State.init with stack := [a] }⟩

end Owipcalc
