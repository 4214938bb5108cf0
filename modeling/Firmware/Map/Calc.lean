import Firmware.Lib.Bits

/-!
# mapcalc

What `mapcalc` computes for one rule: the delegated prefix, the PSID, the addresses and the port
sets.

* `bmemcpy`, `bmemcpys64`   copies of bits;
* `matchPrefix`, `findPd`   the search for the delegated prefix in the interface dump;
* `mainRule`                the numbers of one rule; `none` is an access outside a buffer;
* `portsets`                the ranges of `RULE_n_PORTSETS`.

Shift counts are taken modulo 32, as the processor does.  A copy from the delegated prefix may read
behind it: `behind` is what stands there on the stack.
-/

set_option linter.unusedVariables false

namespace MapCalc
open Img Bits

/-! ## bits -/

def bmemcpy (a b : List UInt8) (n : Nat) : Option (List UInt8) := do
  let bytes := n / 8
  let bits := n % 8
  let a ← (load b 0 bytes).bind (store a 0)
  if bits > 0 then
    let mask : UInt8 := (1 <<< UInt8.ofNat (8 - bits)) - 1
    let x ← a[bytes]?
    let y ← b[bytes]?
    some (a.set bytes ((x &&& mask) ||| (~~~mask &&& y)))
  else some a

/-- `bmemcmp(..) == 0` -/
def bmemcmp (a b : List UInt8) (n : Nat) : Option Bool := do
  let bytes := n / 8
  let bits := n % 8
  let p ← load a 0 bytes
  let q ← load b 0 bytes
  if p = q ∧ bits > 0 then
    let x ← a[bytes]?
    let y ← b[bytes]?
    some (x >>> UInt8.ofNat (8 - bits) = y >>> UInt8.ofNat (8 - bits))
  else some (p = q)

/-- a negative count is a huge one -/
def bmemcpys64 (a b : List UInt8) (frombits nbits : Int) : Option (List UInt8) := do
  if frombits < 0 ∨ nbits < 0 then none
  else
    let from_ := frombits.toNat
    let n := nbits.toNat
    let frombyte := from_ / 8
    let tobyte := (from_ + n) / 8
    let buf ← (load b frombyte (tobyte - frombyte + 1)).bind (store (List.replicate 8 0) 0)
    bmemcpy a (toBytes 8 (ofBytes buf <<< (from_ % 8))) n

/-- `>>` of an `int` -/
def sar (x n : Int) : Int := x / 2 ^ (n % 32).toNat

/-- `<<` of an `int` -/
def shl (x n : Int) : Int := CInt.wrap (x * 2 ^ (n % 32).toNat)

/-! ## rules -/

/-- the options of a rule: what `strtoul` gives is stored in an `int` and has an upper bound -/
structure Rule where
  lw4o6 : Bool := false
  fmr : Bool := false
  ealen : Int := -1
  prefix4len : Int := 32
  prefix6len : Int := -1
  pdlen : Int := -1
  ipv4prefix : List UInt8 := List.replicate 4 0
  ipv6prefix : List UInt8 := List.replicate 16 0
  pd : List UInt8 := List.replicate 16 0
  offset : Int := -1
  psidlen : Int := -1
  psid : Int := -1
  hEalen : ealen ≤ 48 := by decide
  hPrefix4len : prefix4len ≤ 32 := by decide
  hPrefix6len : prefix6len ≤ 128 := by decide
  hOffset : offset ≤ 16 := by decide
  hPsidlen : psidlen ≤ 16 := by decide
  hPsid : -2147483648 ≤ psid ∧ psid ≤ 65535 := by decide
  hIpv4prefix : ipv4prefix.length = 4 := by decide
  hPd : pd.length = 16 := by decide

/-- an interface of the dump: its name, and the prefixes and addresses with their masks -/
structure Iface where
  interface : String
  ipv6Prefix : List (List UInt8 × Int)
  ipv6Address : List (List UInt8 × Int)

/-- a comparison behind `&&`; a negative count is a huge one -/
def sameBits (c : Bool) (a b : List UInt8) (n : Int) : Option Bool :=
  if c then (if n < 0 then none else bmemcmp a b n.toNat) else some false

/-- one prefix: the delegated prefix and its length, as far as they are known -/
def matchOne (r : Rule) (pd p : List UInt8 × Int) : Option (List UInt8 × Int) :=
  let mask := if r.lw4o6 ∧ p.2 = 128 then 64 else p.2
  (sameBits (pd.2 < mask && mask ≥ r.prefix6len) p.1 r.ipv6prefix r.prefix6len).bind fun hit =>
    if hit then (bmemcpy pd.1 p.1 mask.toNat).map fun m => (m, mask)
    else
      (sameBits (r.lw4o6 && pd.2 < r.prefix6len && mask < r.prefix6len) p.1 r.ipv6prefix mask).bind
        fun hit =>
          if hit then
            (bmemcpy pd.1 r.ipv6prefix r.prefix6len.toNat).map fun m => (m, r.prefix6len)
          else some pd

def matchPrefix (r : Rule) : List (List UInt8 × Int) → List UInt8 × Int → Option (List UInt8 × Int)
  | [], pd => some pd
  | p :: ps, pd => (matchOne r pd p).bind (matchPrefix r ps)

/-- `argv[1]` is the name of an interface, or `*` -/
def findIn (argv1 : String) (r : Rule) : List Iface → List UInt8 × Int → Option (List UInt8 × Int)
  | [], pd => some pd
  | c :: cs, pd =>
    if argv1 ≠ "*" ∧ argv1 ≠ c.interface then findIn argv1 r cs pd
    else
      (matchPrefix r c.ipv6Prefix pd).bind fun pd =>
        (matchPrefix r (if r.lw4o6 then c.ipv6Address else []) pd).bind fun pd =>
          if pd.2 ≥ 0 then some pd else findIn argv1 r cs pd

def findPd (argv1 : String) (dump : List Iface) (r : Rule) : Option (List UInt8 × Int) :=
  if r.pdlen < 0 then findIn argv1 r dump (r.pd, r.pdlen) else some (r.pd, r.pdlen)

/-! ## one rule -/

/-- the values that are printed -/
structure Out where
  ealen : Int
  psidlen : Int
  offset : Int
  pdlen : Int
  psid : Int
  psid16 : List UInt8
  ipv4addr : List UInt8
  addr4len : Int
  ipv6addr : List UInt8

def offsetOf (legacy : Bool) (r : Rule) : Int :=
  if r.offset < 0 then (if r.lw4o6 then 0 else if legacy then 4 else 6) else r.offset

/-- `psidlen` as given: a lw4over6 rule has no PSID without it -/
def psidlenGiven (r : Rule) : Int := if r.lw4o6 ∧ r.psidlen < 0 then 0 else r.psidlen

def ealenOf (r : Rule) (pdlen : Int) : Int :=
  let ealen := if r.lw4o6 then psidlenGiven r else r.ealen
  if ealen < 0 ∧ pdlen ≥ 0 then pdlen - r.prefix6len else ealen

def psidlenOf (r : Rule) (pdlen : Int) : Int :=
  if psidlenGiven r ≤ 0 then ealenOf r pdlen - (32 - r.prefix4len) else psidlenGiven r

def psidGiven (r : Rule) : Int := if psidlenGiven r ≤ 0 then -1 else r.psid

/-- the PSID, left-aligned: as given, or from the delegated prefix -/
def findPsid (r : Rule) (mem : List UInt8) (pdlen : Int) : Option Int :=
  let psidlen := psidlenOf r pdlen
  if psidGiven r < 0 ∧ psidlen ≤ 16 ∧ psidlen ≥ 0 ∧ pdlen ≥ 0 ∧ ealenOf r pdlen ≥ psidlen then
    (bmemcpys64 [0, 0] mem (r.prefix6len + ealenOf r pdlen - psidlen) psidlen).map
      fun m => (ofBytes m : Int)
  else some (psidGiven r)

/-- the PSID, right-aligned -/
def psidRight (r : Rule) (pdlen psid : Int) : Int := sar psid (16 - psidlenOf r pdlen)

def psid16Of (r : Rule) (pdlen psid : Int) : List UInt8 :=
  toBytes 2 (psidRight r pdlen psid % 65536).toNat

def invalid (r : Rule) (pdlen : Int) : Bool :=
  r.prefix4len < 0 || r.prefix6len < 0 || ealenOf r pdlen < 0 || ealenOf r pdlen < psidlenOf r pdlen

/-- there are embedded address bits to copy, or none are needed -/
def embedded (r : Rule) (pdlen : Int) : Bool :=
  pdlen ≥ 0 || ealenOf r pdlen = psidlenOf r pdlen

def findIpv4 (r : Rule) (mem : List UInt8) (pdlen : Int) : Option (List UInt8) :=
  if embedded r pdlen then
    (bmemcpys64 (List.replicate 4 0) mem r.prefix6len (ealenOf r pdlen - psidlenOf r pdlen)).bind
      fun a => bmemcpy (toBytes 4 (ofBytes a >>> (r.prefix4len % 32).toNat)) r.ipv4prefix
        r.prefix4len.toNat
  else some (List.replicate 4 0)

def addr4lenOf (r : Rule) (pdlen : Int) : Int :=
  if embedded r pdlen ∧ r.prefix4len + ealenOf r pdlen < 32 then r.prefix4len + ealenOf r pdlen
  else 32

/-- the IPv4 address and the PSID behind `v4offset`, then the delegated prefix -/
def findIpv6 (legacy : Bool) (pd : List UInt8) (pdlen : Int) (ipv4addr psid16 : List UInt8) :
    Option (List UInt8) :=
  if pdlen ≥ 0 then
    let v4offset := if legacy then 9 else 10
    (store (List.replicate 16 0) v4offset ipv4addr).bind fun a =>
      (store a (v4offset + 4) psid16).bind fun a => bmemcpy a pd pdlen.toNat
  else some (List.replicate 16 0)

/-- the numbers of a rule with its delegated prefix; the inner `none` is a skipped rule -/
def mainRulePd (legacy : Bool) (behind : List UInt8) (r : Rule) (pd : List UInt8) (pdlen : Int) :
    Option (Option Out) :=
  (findPsid r (pd ++ behind) pdlen).bind fun psid =>
    if invalid r pdlen then some none
    else
      (findIpv4 r (pd ++ behind) pdlen).bind fun ipv4addr =>
        if pdlen < 0 ∧ r.fmr = false then some none
        else
          (findIpv6 legacy pd pdlen ipv4addr (psid16Of r pdlen psid)).map fun ipv6addr =>
            some
              { ealen := ealenOf r pdlen
                psidlen := psidlenOf r pdlen
                offset := offsetOf legacy r
                pdlen := pdlen
                psid := shl (psidRight r pdlen psid) (16 - psidlenOf r pdlen)
                psid16 := psid16Of r pdlen psid
                ipv4addr := ipv4addr
                addr4len := addr4lenOf r pdlen
                ipv6addr := ipv6addr }

def mainRule (legacy : Bool) (argv1 : String) (dump : List Iface) (behind : List UInt8) (r : Rule) :
    Option (Option Out) := do
  let (pd, pdlen) ← findPd argv1 dump r
  mainRulePd legacy behind r pd pdlen

/-! ## port sets -/

/-- the range for index `k`, unless it is empty -/
def portset (offset psidlen psid : Int) (k : Nat) : Option (Int × Int) :=
  let start := ((k <<< (16 - offset).toNat) ||| (sar psid offset).toNat : Nat)
  let last : Int := start + shl 1 (16 - offset - psidlen) - 1
  let start : Int := if start = 0 then 1 else start
  if start ≤ last then some (start, last) else none

/-- `none` when there is no `RULE_n_PORTSETS` -/
def portsets (offset psidlen psid : Int) : Option (List (Int × Int)) :=
  if psidlen > 0 ∧ psid ≥ 0 then
    let first := if offset = 0 then 0 else 1
    some ((List.range' first ((shl 1 offset).toNat - first)).filterMap
      (portset offset psidlen psid))
  else none

def Out.portsets (o : Out) : Option (List (Int × Int)) :=
  MapCalc.portsets o.offset o.psidlen o.psid

end MapCalc
