import Firmware.Bn.Exp
import Firmware.Ead.Base64
import Firmware.Ead.Sha1
import Firmware.Lib.Cstr

/-!
# tinysrp: the two sides of the protocol

`t_server.c`, `t_client.c`, `t_misc.c`, `t_math.c` and `t_getconf.c`.  A function of `t_server.c` or `t_client.c`
gets its struct and returns the new one; the random bytes are an argument.

* `Host`                                  what differs between two machines;
* `preParams`, `getpreparam`              the moduli and generators;
* `sessionkey`                            the key of 40 bytes;
* `TServer`, `serveropenraw`, `servergenexp`, `servergetkey`, `serververify`;
* `TClient`, `clientopen`, `clientgenexp`, `clientpasswd`, `clientgetkey`, `clientverify`.
-/

set_option linter.unusedVariables false

namespace Ead.Srp
open Img Word Bn BigNum

/-- the byte order, the size of a word of a number, and what is in the buffer of a context before `SHA1Init` -/
structure Host where
  big : Bool
  w : WordSize
  junk : List UInt8
  junk_length : junk.length = 64

def Host.init (h : Host) : ShaCtx := sha1Init h.junk

def Host.update (h : Host) (ctx : ShaCtx) (data : List UInt8) : ShaCtx := sha1Update h.big ctx data

/-- what `SHA1Final` leaves of a context -/
def Host.wiped (h : Host) : ShaCtx := ⟨sha1Transform h.big ⟨0, 0, 0, 0, 0⟩ (zeros 64), 0, 0, zeros 64⟩

/-- a context of its own for the pieces of a message -/
def Host.sha (h : Host) (pieces : List (List UInt8)) : List UInt8 := sha1Final h.big (pieces.foldl h.update h.init)

/-! ## `t_getconf.c` -/

/-- `pre_params` -/
def preParams : List (String × String) :=
  [("2iQzj1CagQc/5ctbuJYLWlhtAsPHc7xWVyCPAKFRLWKADpASkqe9djWPFWTNTdeJtL8nAhImCn3Sr/IAdQ1FrGw0WvQUstPx" ++
      "3FO9KNcXOwisOQ1VlL.gheAHYfbYyBaxXL.NcJx9TUwgWDT0hRzFzqSrdGGTN3FgSTA1v4QnHtEygNj3eZ.u0MThqWUaDiP8" ++
      "7nqha7XnT66bkTCkQ8.7T8L4KZjIImrNrUftedTTBi.WCi.zlrBxDuOM0da0JbUkQlXqvp0yvJAPpC11nxmmZOAbQOywZGmu" ++
      "9nhZNuwTlxjfIro0FOdthaDTuZRL9VL7MRPUDo/DQEyW.d4H.UIlzp", "2"),
   ("dUyyhxav9tgnyIg65wHxkzkb7VIPh4o0lkwfOKiPp4rVJrzLRYVBtb76gKlaO7ef5LYGEw3G.4E0jbMxcYBetDy2YdpiP/3G" ++
      "WJInoBbvYHIRO9uBuxgsFKTKWu7RnR7yTau/IrFTdQ4LY/q.AvoCzMxV0PKvD9Odso/LFIItn8PbTov3VMn/ZEH2SqhtpBUk" ++
      "WtmcIkEflhX/YY/fkBKfBbe27/zUaKUUZEUYZ2H2nlCL60.JIPeZJSzsu/xHDVcx", "2"),
   ("3NUKQ2Re4P5BEK0TLg2dX3gETNNNECPoe92h4OVMaDn3Xo/0QdjgG/EvM.hiVV1BdIGklSI14HA38Mpe5k04juR5/EXMU0r1" ++
      "WtsLhNXwKBlf2zEfoOh0zVmDvqInpU695f29Iy7sNW3U5RIogcs740oUp2Kdv5wuITwnIx84cnO.e467/IV1lPnvMCr0pd1d" ++
      "gS0a.RV5eBJr03Q65Xy61R", "2"),
   ("F//////////oG/QeY5emZJ4ncABWDmSqIa2JWYAPynq0Wk.fZiJco9HIWXvZZG4tU.L6RFDEaCRC2iARV9V53TFuJLjRL72H" ++
      "UI5jNPYNdx6z4n2wQOtxMiB/rosz0QtxUuuQ/jQYP.bhfya4NnB7.P9A6PHxEPJWV//////////", "5"),
   ("Ewl2hcjiutMd3Fu2lgFnUXWSc67TVyy2vwYCKoS9MLsrdJVT9RgWTCuEqWJrfB6uE3LsE9GkOlaZabS7M29sj5TnzUqOLJMj" ++
      "iwEzArfiLr9WbMRANlF68N5AVLcPWvNx6Zjl3m5Scp0BzJBz9TkgfhzKJZ.WtP3Mv/67I/0wmRZ", "2")]

/-- `t_confent` and `t_preconf` -/
structure Confent where
  modulus : List UInt8
  generator : List UInt8
deriving DecidableEq

/-- the bytes of a string -/
def chars (s : String) : List UInt8 := s.toUTF8.data.toList

/-- `none` is an index that is not in the table, which is not checked -/
def getpreparam (idx : Nat) : Option Confent := do
  let p ← preParams[idx]?
  let modulus ← fromb64 (chars p.1)
  let generator ← fromb64 (chars p.2)
  return ⟨modulus, generator⟩

/-- the entries of the table: what a client takes, and what fits the buffers for parameters -/
theorem preParams_ok : ∀ i < preParams.length, (getpreparam i).isSome ∧ ∀ c ∈ getpreparam i,
    64 ≤ c.modulus.length ∧ c.modulus.length ≤ 256 ∧ c.generator.length ≤ 256 ∧ 1 < Bits.ofBytes c.modulus := by
  decide +kernel

theorem getpreparam_isSome {idx : Nat} : (getpreparam idx).isSome = true ↔ idx < preParams.length := by
  constructor
  · intro h
    by_contra hn
    have hout : preParams[idx]? = none := List.getElem?_eq_none (Nat.le_of_not_lt hn)
    unfold getpreparam at h
    rw [hout] at h
    exact absurd h (by simp)
  · intro h
    exact (preParams_ok idx h).1

/-- "id is index origin 1" -/
def gettcid (id : Int) : Option Confent :=
  if id ≤ 0 ∨ id > preParams.length then none else getpreparam (id - 1).toNat

/-! ## `t_math.c` -/

section
variable (h : Host)

def fromBytes (bytes : List UInt8) : BigNum := bin2bn h.w bytes
def toBytes (a : BigNum) : List UInt8 := bn2bin h.w a

/-- where a function of `bn` fails, `r` stays what it is -/
def bigAdd (r a b : BigNum) : BigNum := (BigNum.add h.w a b).getD r
def bigSub (r a b : BigNum) : BigNum := (BigNum.sub h.w a b).getD r
def bigMulInt (a : BigNum) (n : Nat) : BigNum := BigNum.mul h.w a (ofWord n)
def bigModMul (r a b m : BigNum) : BigNum := (modMul h.w false a b m).getD r
def bigModExp (r a p m : BigNum) : BigNum := (modExp h.w a p m).getD r

/-! ## `t_misc.c` -/

/-- the bytes at the even, or the odd, places from the end on, and the two digests in turn -/
def sessionkey (sk : List UInt8) : List UInt8 :=
  let sk := sk.dropWhile (· = 0)
  let klen := sk.length / 2
  let even := h.sha [(List.range klen).map fun i => sk.getD (sk.length - 2 * i - 1) 0]
  let odd := h.sha [(List.range klen).map fun i => sk.getD (sk.length - 2 * i - 2) 0]
  (even.zip odd).flatMap fun p => [p.1, p.2]

/-- `u`, the first four bytes of a digest -/
def scramble (b : List UInt8) : Nat := Bits.ofBytes ((h.sha [b]).take 4)

/-- what both sides hash first: the parameters, the name and the salt -/
def opened (n g name s : List UInt8) : ShaCtx :=
  h.update (h.update (h.update h.init ((h.sha [n]).zipWith (· ^^^ ·) (h.sha [g]))) (h.sha [name])) s

/-! ## `t_server.c` -/

/-- `password` is the verifier -/
structure Pwent where
  name : List UInt8
  password : List UInt8
  salt : List UInt8

structure TServer where
  n : List UInt8
  g : List UInt8
  v : List UInt8
  s : List UInt8
  b : List UInt8
  bigB : List UInt8
  oldhash : ShaCtx
  hash : ShaCtx
  oldckhash : ShaCtx
  ckhash : ShaCtx
  sessionKey : List UInt8
  sessionResponse : List UInt8

/-- the secret, its power, the key and the response are not set -/
def serveropenraw (ent : Pwent) (tce : Confent) : TServer :=
  ⟨tce.modulus, tce.generator, ent.password, ent.salt, [], [], h.init, h.init, h.init,
    opened h tce.modulus tce.generator ent.name ent.salt, [], []⟩

/-- `t_random` fills the secret from `random` -/
def servergenexp (random : List UInt8) (ts : TServer) : TServer :=
  let b := random.take (if ts.n.length < 32 then ts.n.length else 32)
  let n := fromBytes h ts.n
  let bigB := bigModExp h zero (fromBytes h ts.g) (fromBytes h b) n
  let bigB := bigAdd h bigB bigB (fromBytes h ts.v)
  let bigB := toBytes h (if BigNum.cmp bigB n = .gt then bigSub h bigB bigB n else bigB)
  { ts with b := b, bigB := bigB, oldckhash := h.update ts.oldckhash bigB }

/-- a `NULL` leaves what was hashed before -/
def servergetkey (ts : TServer) (clientval : List UInt8) : TServer × Option (List UInt8) :=
  let ts := { ts with ckhash := h.update (h.update ts.ckhash clientval) ts.bigB }
  let u := scramble h ts.bigB
  let ts := { ts with oldhash := h.update ts.oldhash clientval, hash := h.update ts.hash clientval }
  let n := fromBytes h ts.n
  let prod := bigModExp h zero (fromBytes h ts.v) (ofWord u) n
  let res := bigModMul h zero prod (fromBytes h clientval) n
  if BigNum.cmp res (ofWord 1) ≠ .gt then (ts, none)
  else
    let s := bigAdd h zero res (ofWord 1)
    if BigNum.cmp s n = .eq then (ts, none)
    else
      let key := sessionkey h (toBytes h (bigModExp h s res (fromBytes h ts.b) n))
      ({ ts with sessionKey := key, oldhash := h.update ts.oldhash key, oldckhash := h.update ts.oldckhash key,
                 ckhash := h.update ts.ckhash key }, some key)

/-- `true` is a return of 0 -/
def serververify (ts : TServer) (resp : List UInt8) : TServer × Bool :=
  let old := { ts with oldckhash := h.wiped }
  if sha1Final h.big ts.oldckhash = resp then
    ({ old with oldhash := h.wiped, sessionResponse := sha1Final h.big ts.oldhash }, true)
  else
    let expected := sha1Final h.big ts.ckhash
    let new := { old with ckhash := h.wiped }
    if expected = resp then
      let hash := h.update (h.update ts.hash expected) ts.sessionKey
      ({ new with hash := h.wiped, sessionResponse := sha1Final h.big hash }, true)
    else (new, false)

/-! ## `t_client.c` -/

structure TClient where
  n : List UInt8
  g : List UInt8
  s : List UInt8
  a : List UInt8
  bigA : List UInt8
  p : List UInt8
  v : List UInt8
  hash : ShaCtx
  ckhash : ShaCtx
  username : List UInt8
  sessionKey : List UInt8
  sessionResponse : List UInt8

/-- `MAXUSERLEN`, the size of `username` -/
def maxUserLen : Nat := 32

/-- `MAXSALTLEN`, the size of `sbuf` -/
def maxSaltLen : Nat := 32

/-- "Match found, done"; the inner `none` is the `NULL` that is returned.  The outer one: `strncpy` has left no NUL
in `username`, and `strlen` runs on behind it; or the salt is copied over the end of `sbuf`. -/
def clientopen (u : CStr) (n g s : List UInt8) : Option (Option TClient) :=
  if n.length < 64 then some none
  else if ∃ i < preParams.length, getpreparam i = some ⟨n, g⟩ then
    if u.length < maxUserLen ∧ s.length ≤ maxSaltLen then
      some (some ⟨n, g, s, [], [], [], [], opened h n g u.bytes s, h.init, u.bytes, [], []⟩)
    else none
  else some none

def clientgenexp (random : List UInt8) (tc : TClient) : TClient :=
  let a := random.take (if tc.n.length < 32 then tc.n.length else 32)
  let bigA := toBytes h (bigModExp h zero (fromBytes h tc.g) (fromBytes h a) (fromBytes h tc.n))
  { tc with a := a, bigA := bigA, hash := h.update tc.hash bigA, ckhash := h.update tc.ckhash bigA }

/-- `H(s, H(u, ':', p))` -/
def secret (s u password : List UInt8) : List UInt8 := h.sha [s, h.sha [u, [58], password]]

/-- the power of the secret: the verifier -/
def verifier (n g s u password : List UInt8) : List UInt8 :=
  toBytes h (bigModExp h zero (fromBytes h g) (fromBytes h (secret h s u password)) (fromBytes h n))

def clientpasswd (tc : TClient) (password : CStr) : TClient :=
  { tc with p := toBytes h (fromBytes h (secret h tc.s tc.username password.bytes)),
            v := verifier h tc.n tc.g tc.s tc.username password.bytes }

def clientgetkey (tc : TClient) (serverval : List UInt8) : TClient × Option (List UInt8) :=
  let u := scramble h serverval
  if u = 0 then (tc, none)
  else
    let tc := { tc with hash := h.update tc.hash serverval }
    let bigB := fromBytes h serverval
    let n := fromBytes h tc.n
    if BigNum.cmp bigB n ≠ .lt ∨ BigNum.cmp bigB (ofWord 0) = .eq then (tc, none)
    else
      let v := fromBytes h tc.v
      let bigB := if BigNum.cmp bigB v = .lt then bigAdd h bigB bigB n else bigB
      let bigB := bigSub h bigB bigB v
      let sum := bigMulInt h (fromBytes h tc.p) u
      let sum := bigAdd h sum sum (fromBytes h tc.a)
      let key := sessionkey h (toBytes h (bigModExp h zero bigB sum n))
      let hash := h.update tc.hash key
      let response := sha1Final h.big hash
      ({ tc with sessionKey := key, hash := h.wiped, sessionResponse := response,
                 ckhash := h.update (h.update tc.ckhash response) key }, some key)

/-- `true` is a return of 0 -/
def clientverify (tc : TClient) (resp : List UInt8) : TClient × Bool :=
  ({ tc with ckhash := h.wiped }, sha1Final h.big tc.ckhash = resp)

end

/-! ## opening -/

section
variable {h : Host} {u : CStr} {n g s : List UInt8} {tc : TClient}

/-- a client that could be opened -/
theorem clientopen_some (ho : clientopen h u n g s = some (some tc)) :
    (∃ i < preParams.length, getpreparam i = some ⟨n, g⟩) ∧ u.length < maxUserLen ∧ s.length ≤ maxSaltLen ∧
      tc = ⟨n, g, s, [], [], [], [], opened h n g u.bytes s, h.init, u.bytes, [], []⟩ := by
  unfold clientopen at ho
  split at ho
  · cases ho
  split at ho
  · next htab =>
    split at ho
    · next hfit => exact ⟨htab, hfit.1, hfit.2, (Option.some.inj (Option.some.inj ho)).symm⟩
    · cases ho
  · cases ho

/-- with an entry of the table the client stays inside its buffers exactly if the name and the salt fit -/
theorem clientopen_table {i : Nat} {c : Confent} (hc : getpreparam i = some c) :
    clientopen h u c.modulus c.generator s =
      if u.length < maxUserLen ∧ s.length ≤ maxSaltLen then
        some (some ⟨c.modulus, c.generator, s, [], [], [], [], opened h c.modulus c.generator u.bytes s, h.init,
          u.bytes, [], []⟩)
      else none := by
  have hi : i < preParams.length := getpreparam_isSome.mp (by rw [hc]; rfl)
  have h64 := ((preParams_ok i hi).2 c hc).1
  unfold clientopen
  rw [if_neg (by omega), if_pos ⟨i, hi, hc⟩]

end

/-! ## numbers and their bytes -/

/-- the bytes of a number, none of them 0 in front -/
def natBytes (n : Nat) : List UInt8 := Bits.toBytes ((n.size + 7) / 8) n

theorem natBytes_length (n : Nat) : (natBytes n).length = (n.size + 7) / 8 := Bits.toBytes_length _ _

theorem ofBytes_natBytes (n : Nat) : Bits.ofBytes (natBytes n) = n := by
  unfold natBytes
  rw [Bits.ofBytes_toBytes, Nat.mod_eq_of_lt]
  exact Nat.lt_of_lt_of_le (Nat.lt_size_self n) (Nat.pow_le_pow_right (by decide) (by omega))

/-- a number is not longer than bytes that have its value or more -/
theorem natBytes_length_le {n : Nat} {l : List UInt8} (h : n ≤ Bits.ofBytes l) : (natBytes n).length ≤ l.length := by
  have hs : n.size ≤ 8 * l.length := Nat.size_le.mpr (Nat.lt_of_le_of_lt h (Bits.ofBytes_lt l))
  rw [natBytes_length]
  omega

section
variable {h : Host} {a b m p r : BigNum} {x y n e : Nat}

theorem fromBytes_is (h : Host) (l : List UInt8) : Is h.w (fromBytes h l) (Bits.ofBytes l) := bin2bn_is h.w l

theorem toBytes_eq (ha : Is h.w a n) : toBytes h a = natBytes n := bn2bin_eq ha

theorem word_is (h : Host) {n : Nat} (hn : n < 4294967296) : Is h.w (ofWord n) n := by
  apply ofWord_is
  obtain ⟨-, hb⟩ | ⟨-, hb⟩ := h.w.sizes <;> omega

theorem bigAdd_is (ha : Is h.w a x) (hb : Is h.w b y) : Is h.w (bigAdd h r a b) (x + y : Nat) := by
  obtain ⟨c, hc, hcis⟩ := add_is ha hb
  unfold bigAdd
  rw [hc, Nat.cast_add]
  exact hcis

theorem bigSub_is (ha : Is h.w a x) (hb : Is h.w b y) (hle : y ≤ x) : Is h.w (bigSub h r a b) (x - y : Nat) := by
  obtain ⟨c, hc, hcis⟩ := sub_is ha hb
  unfold bigSub
  rw [hc, Nat.cast_sub hle]
  exact hcis

theorem bigMulInt_is (ha : Is h.w a x) {u : Nat} (hu : u < 4294967296) : Is h.w (bigMulInt h a u) (x * u : Nat) := by
  rw [Nat.cast_mul]
  exact mul_is ha (word_is h hu)

theorem bigModMul_is (ha : Is h.w a x) (hb : Is h.w b y) (hm : Is h.w m n) (h0 : 0 < n) :
    Is h.w (bigModMul h r a b m) (x * y % n : Nat) := by
  obtain ⟨c, hc, hcis⟩ := modMul_is false (fun h => absurd h Bool.false_ne_true) ha hb hm h0
  unfold bigModMul
  rw [hc]
  exact hcis

theorem bigModExp_is (ha : Is h.w a x) (hp : Is h.w p e) (hm : Is h.w m n) (h1 : 1 < n) :
    Is h.w (bigModExp h r a p m) (x ^ e % n : Nat) := by
  obtain ⟨c, hc, hcis⟩ := modExp_is ha hp hm (by omega)
  unfold bigModExp
  rw [hc]
  by_cases he : e = 0
  · rw [if_pos he] at hcis
    rw [he, Nat.pow_zero, Nat.mod_eq_of_lt h1]
    exact hcis
  · rw [if_neg he] at hcis
    exact hcis

theorem cmp_nat (ha : Is h.w a x) (hb : Is h.w b y) : BigNum.cmp a b = compare x y := by
  rw [BigNum.cmp_eq ha hb]
  show compareOfLessAndEq (x : Int) y = compareOfLessAndEq x y
  unfold compareOfLessAndEq
  simp only [Int.ofNat_lt, Int.ofNat_inj]

theorem cmp_gt (ha : Is h.w a x) (hb : Is h.w b y) : BigNum.cmp a b = .gt ↔ y < x := by
  rw [cmp_nat ha hb, Nat.compare_eq_gt]

theorem cmp_lt (ha : Is h.w a x) (hb : Is h.w b y) : BigNum.cmp a b = .lt ↔ x < y := by
  rw [cmp_nat ha hb, Nat.compare_eq_lt]

theorem cmp_eq (ha : Is h.w a x) (hb : Is h.w b y) : BigNum.cmp a b = .eq ↔ x = y := by
  rw [cmp_nat ha hb, Nat.compare_eq_eq]

end

end Ead.Srp
