import Firmware.Ead.Srp

/-!
# tinysrp: the two sides agree

What a run of `t_server.c` and `t_client.c` computes, in numbers and digests that do not depend on the machines.

* `opening`, `scrambleOf`, `keyOf`, `publicB`   these numbers and digests;
* `Hashed`                                 what the four contexts of the server have taken in;
* `servergenexp_eq`, `servergetkey_eq`, `clientgetkey_eq`;
* `shared`                                 the exponents meet;
* `agree`                                  the keys are the same, and each side accepts the other.
-/

set_option linter.unusedVariables false

namespace Ead.Srp
open Img Bn BigNum

/-! ## digests -/

/-- what `SHA1Update` can take at once -/
def Short (d : List UInt8) : Prop := d.length + 63 < 4294967296

def opening (n g name s : List UInt8) : List UInt8 :=
  (sha1 n).zipWith (· ^^^ ·) (sha1 g) ++ sha1 name ++ s

def scrambleOf (bigB : List UInt8) : Nat := Bits.ofBytes ((sha1 bigB).take 4)

/-- the session key of the bytes of a number -/
def keyOf (sk : List UInt8) : List UInt8 :=
  let sk := sk.dropWhile (· = 0)
  let klen := sk.length / 2
  let even := sha1 ((List.range klen).map fun i => sk.getD (sk.length - 2 * i - 1) 0)
  let odd := sha1 ((List.range klen).map fun i => sk.getD (sk.length - 2 * i - 2) 0)
  (even.zip odd).flatMap fun p => [p.1, p.2]

theorem keyOf_length (sk : List UInt8) : (keyOf sk).length = 40 := by
  unfold keyOf
  dsimp only
  rw [List.length_flatMap]
  show ((List.zip _ _).map fun _ => 2).sum = 40
  rw [List.map_const', List.sum_replicate, List.length_zip, sha1_length, sha1_length]
  rfl

section
variable {h : Host} {ctx : ShaCtx} {m d : List UInt8}

theorem init_absorbed (h : Host) : h.init.Absorbed h.big [] := sha1Init_absorbed h.big h.junk_length

theorem update_absorbed (hc : ctx.Absorbed h.big m) (hd : Short d) : (h.update ctx d).Absorbed h.big (m ++ d) :=
  sha1Update_absorbed hc hd

/-- a digest does not depend on the machine -/
theorem sha_eq (h : Host) {pieces : List (List UInt8)} (hp : ∀ d ∈ pieces, Short d) :
    h.sha pieces = sha1 pieces.flatten :=
  sha1Final_eq (sha1Updates_absorbed pieces (init_absorbed h) hp)

theorem sha_one (h : Host) (hd : Short d) : h.sha [d] = sha1 d := by
  rw [sha_eq h (by simpa using hd)]
  exact congrArg sha1 (List.append_nil d)

theorem short_sha1 (d : List UInt8) : Short (sha1 d) := by
  unfold Short
  rw [sha1_length]
  decide

theorem opened_absorbed (h : Host) {n g name s : List UInt8} (hn : Short n) (hg : Short g) (hu : Short name)
    (hs : Short s) : (opened h n g name s).Absorbed h.big (opening n g name s) := by
  unfold opened opening
  rw [sha_one h hn, sha_one h hg, sha_one h hu]
  have hx : Short ((sha1 n).zipWith (· ^^^ ·) (sha1 g)) := by
    unfold Short
    rw [List.length_zipWith, sha1_length, sha1_length]
    decide
  exact update_absorbed (update_absorbed (update_absorbed (init_absorbed h) hx) (short_sha1 name)) hs

theorem scramble_eq (h : Host) (hd : Short d) : scramble h d = scrambleOf d := by
  unfold scramble scrambleOf
  rw [sha_one h hd]

theorem scrambleOf_lt (d : List UInt8) : scrambleOf d < 4294967296 := by
  have hl := Bits.ofBytes_lt ((sha1 d).take 4)
  rw [List.length_take, sha1_length] at hl
  exact hl

theorem sessionkey_eq (h : Host) (hd : Short d) : sessionkey h d = keyOf d := by
  have hl : (d.dropWhile (· = 0)).length ≤ d.length := (List.dropWhile_suffix _).length_le
  have hk (f : Nat → UInt8) : Short ((List.range ((d.dropWhile (· = 0)).length / 2)).map f) := by
    unfold Short at hd ⊢
    rw [List.length_map, List.length_range]
    omega
  unfold sessionkey keyOf
  dsimp only
  rw [sha_one h (hk _), sha_one h (hk _)]

end

/-! ## numbers -/

/-- the value of the server that is sent, for the secret `b` -/
def publicB (g v n b : Nat) : Nat := if n < g ^ b % n + v then g ^ b % n + v - n else g ^ b % n + v

/-- the power of which the session key is made, as the server has it -/
def serverS (v n u a b : Nat) : Nat := (v ^ u % n * a % n) ^ b % n

/-- and as the client has it -/
def clientS (bigB v n x u a : Nat) : Nat := (if bigB < v then bigB + n - v else bigB - v) ^ (x * u + a) % n

theorem publicB_le {g v n b : Nat} (hv : v < n) : publicB g v n b ≤ n := by
  have := Nat.mod_lt (g ^ b) (show 0 < n by omega)
  unfold publicB
  split <;> omega

/-- the client takes the verifier off: what is left is the power of the secret -/
theorem publicB_sub {g v n b : Nat} (hv : v < n) (hB : publicB g v n b < n) :
    (if publicB g v n b < v then publicB g v n b + n - v else publicB g v n b - v) = g ^ b % n := by
  have := Nat.mod_lt (g ^ b) (show 0 < n by omega)
  unfold publicB at hB ⊢
  split at hB <;> split <;> split <;> omega

/-- **The exponents meet**, for any modulus. -/
theorem shared {g n x u a b : Nat} (hn : 0 < n) (hB : publicB g (g ^ x % n) n b < n) :
    clientS (publicB g (g ^ x % n) n b) (g ^ x % n) n x u a = serverS (g ^ x % n) n u (g ^ a % n) b := by
  have hres : (g ^ x % n) ^ u % n * (g ^ a % n) % n = g ^ (x * u + a) % n := by
    rw [← Nat.pow_mod, ← Nat.mul_mod, ← Nat.pow_mul, ← Nat.pow_add]
  unfold clientS serverS
  rw [publicB_sub (Nat.mod_lt _ hn) hB, hres, ← Nat.pow_mod, ← Nat.pow_mod, ← Nat.pow_mul, ← Nat.pow_mul,
    Nat.mul_comm b]

theorem natBytes_short {n : List UInt8} (hn : Short n) {k : Nat} (h : k ≤ Bits.ofBytes n) : Short (natBytes k) := by
  have := natBytes_length_le h
  unfold Short at hn ⊢
  omega

/-! ## the server -/

/-- what the four contexts have taken in -/
structure Hashed (h : Host) (ts : TServer) (old new oldck ck : List UInt8) : Prop where
  oldhash : ts.oldhash.Absorbed h.big old
  hash : ts.hash.Absorbed h.big new
  oldckhash : ts.oldckhash.Absorbed h.big oldck
  ckhash : ts.ckhash.Absorbed h.big ck

section
variable {h : Host} {ts : TServer} {ent : Pwent} {tce : Confent} {clientval k : List UInt8}

theorem serveropenraw_hashed (h : Host) (hn : Short tce.modulus) (hg : Short tce.generator) (hu : Short ent.name)
    (hs : Short ent.salt) : Hashed h (serveropenraw h ent tce) [] [] []
      (opening tce.modulus tce.generator ent.name ent.salt) :=
  ⟨init_absorbed h, init_absorbed h, init_absorbed h, opened_absorbed h hn hg hu hs⟩

/-- the secret, as a number -/
def secretOf (n random : List UInt8) : Nat := Bits.ofBytes (random.take (if n.length < 32 then n.length else 32))

theorem servergenexp_eq (h : Host) (random : List UInt8) (ts : TServer) (h1 : 1 < Bits.ofBytes ts.n) :
    (servergenexp h random ts).bigB = natBytes (publicB (Bits.ofBytes ts.g) (Bits.ofBytes ts.v)
      (Bits.ofBytes ts.n) (secretOf ts.n random)) ∧
    Bits.ofBytes (servergenexp h random ts).b = secretOf ts.n random := by
  refine ⟨?_, rfl⟩
  unfold servergenexp
  dsimp only
  have hn := fromBytes_is h ts.n
  have hB := bigModExp_is (r := zero) (fromBytes_is h ts.g) (fromBytes_is h (random.take
    (if ts.n.length < 32 then ts.n.length else 32))) hn h1
  have hB := bigAdd_is (r := bigModExp h zero (fromBytes h ts.g) (fromBytes h (random.take
    (if ts.n.length < 32 then ts.n.length else 32))) (fromBytes h ts.n)) hB (fromBytes_is h ts.v)
  unfold publicB
  by_cases hlt : Bits.ofBytes ts.n < Bits.ofBytes ts.g ^ secretOf ts.n random % Bits.ofBytes ts.n + Bits.ofBytes ts.v
  · rw [if_pos ((cmp_gt hB hn).mpr hlt), if_pos hlt]
    exact toBytes_eq (bigSub_is hB hn (Nat.le_of_lt hlt))
  · rw [if_neg fun hc => hlt ((cmp_gt hB hn).mp hc), if_neg hlt]
    exact toBytes_eq hB

theorem servergenexp_hashed {old new oldck ck : List UInt8} (random : List UInt8) (ht : Hashed h ts old new oldck ck)
    (hB : Short (servergenexp h random ts).bigB) :
    Hashed h (servergenexp h random ts) old new (oldck ++ (servergenexp h random ts).bigB) ck :=
  ⟨ht.oldhash, ht.hash, update_absorbed ht.oldckhash hB, ht.ckhash⟩

/-- the number that must not be 0, 1 or -1 -/
def residue (v n u a : Nat) : Nat := v ^ u % n * a % n

/-- **The key of the server**, and what it has hashed in the end; without a key it keeps the number of the client. -/
theorem servergetkey_eq {old new oldck ck : List UInt8} (ht : Hashed h ts old new oldck ck)
    (h1 : 1 < Bits.ofBytes ts.n) (hA : Short clientval) (hB : Short ts.bigB) (hn : Short ts.n) {r : Nat}
    (hr : r = residue (Bits.ofBytes ts.v) (Bits.ofBytes ts.n) (scrambleOf ts.bigB) (Bits.ofBytes clientval))
    {key : List UInt8} (hk : key = keyOf (natBytes (r ^ Bits.ofBytes ts.b % Bits.ofBytes ts.n))) :
    ((servergetkey h ts clientval).2 = if r ≤ 1 ∨ r + 1 = Bits.ofBytes ts.n then none else some key) ∧
    ((servergetkey h ts clientval).2 = some key → (servergetkey h ts clientval).1.sessionKey = key ∧
      Hashed h (servergetkey h ts clientval).1 (old ++ clientval ++ key) (new ++ clientval) (oldck ++ key)
        (ck ++ clientval ++ ts.bigB ++ key)) := by
  have hN := fromBytes_is h ts.n
  have hprod := bigModExp_is (r := zero) (fromBytes_is h ts.v) (word_is h (scrambleOf_lt ts.bigB)) hN h1
  have hres := bigModMul_is (r := zero) hprod (fromBytes_is h clientval) hN (by omega)
  change Is h.w _ (residue _ _ _ _ : Nat) at hres
  rw [← hr] at hres
  have hone := word_is h (n := 1) (by decide)
  have hs := bigAdd_is (r := zero) hres hone
  unfold servergetkey
  dsimp only
  rw [scramble_eq h hB]
  generalize bigModMul h zero (bigModExp h zero (fromBytes h ts.v) (ofWord (scrambleOf ts.bigB)) (fromBytes h ts.n))
    (fromBytes h clientval) (fromBytes h ts.n) = res at hres hs ⊢
  by_cases hle : r ≤ 1
  · rw [if_pos fun hc => absurd ((cmp_gt hres hone).mp hc) (by omega), if_pos (Or.inl hle)]
    exact ⟨rfl, fun hc => absurd hc.symm (Option.some_ne_none _)⟩
  · rw [if_neg fun hc => hc ((cmp_gt hres hone).mpr (by omega))]
    by_cases heq : r + 1 = Bits.ofBytes ts.n
    · rw [if_pos ((cmp_eq hs hN).mpr heq), if_pos (Or.inr heq)]
      exact ⟨rfl, fun hc => absurd hc.symm (Option.some_ne_none _)⟩
    · rw [if_neg fun hc => heq ((cmp_eq hs hN).mp hc), if_neg (by omega)]
      have hS := bigModExp_is (r := bigAdd h zero res (ofWord 1)) hres (fromBytes_is h ts.b) hN h1
      have hkey : sessionkey h (toBytes h (bigModExp h (bigAdd h zero res (ofWord 1)) res (fromBytes h ts.b)
          (fromBytes h ts.n))) = key := by
        rw [toBytes_eq hS, hk]
        refine sessionkey_eq h (natBytes_short hn (Nat.le_of_lt (Nat.mod_lt _ (by omega))))
      rw [hkey]
      have hkl : Short key := by
        unfold Short
        rw [hk, keyOf_length]
        decide
      refine ⟨rfl, fun _ => ⟨rfl, ?_, ?_, ?_, ?_⟩⟩
      · exact update_absorbed (update_absorbed ht.oldhash hA) hkl
      · exact update_absorbed ht.hash hA
      · exact update_absorbed ht.oldckhash hkl
      · exact update_absorbed (update_absorbed (update_absorbed ht.ckhash hA) hB) hkl

end

/-! ## the client -/

/-- what the two contexts of the client have taken in -/
structure Taken (h : Host) (tc : TClient) (m ck : List UInt8) : Prop where
  hash : tc.hash.Absorbed h.big m
  ckhash : tc.ckhash.Absorbed h.big ck

/-- the number of the password -/
def passwordOf (s u password : List UInt8) : Nat := Bits.ofBytes (sha1 (s ++ sha1 (u ++ ([58] ++ password))))

section
variable {h : Host} {tc : TClient} {serverval : List UInt8}

theorem secret_eq (h : Host) {s u password : List UInt8} (hs : Short s) (hu : Short u) (hp : Short password) :
    Bits.ofBytes (secret h s u password) = passwordOf s u password := by
  have h1 : Short [58] := by
    unfold Short
    decide
  have hin : h.sha [u, [58], password] = sha1 (u ++ ([58] ++ password)) := by
    rw [sha_eq h (by simpa using ⟨hu, h1, hp⟩)]
    simp only [List.flatten_cons, List.flatten_nil, List.append_nil]
  unfold secret passwordOf
  rw [hin, sha_eq h (by simpa using ⟨hs, short_sha1 _⟩)]
  simp only [List.flatten_cons, List.flatten_nil, List.append_nil]

theorem verifier_eq (h : Host) {n g s u password : List UInt8} (hs : Short s) (hu : Short u) (hp : Short password)
    (h1 : 1 < Bits.ofBytes n) : verifier h n g s u password =
      natBytes (Bits.ofBytes g ^ passwordOf s u password % Bits.ofBytes n) := by
  have hv := bigModExp_is (r := zero) (fromBytes_is h g) (fromBytes_is h (secret h s u password)) (fromBytes_is h n) h1
  rw [secret_eq h hs hu hp] at hv
  exact toBytes_eq hv

theorem clientgenexp_eq (h : Host) (random : List UInt8) (tc : TClient) (h1 : 1 < Bits.ofBytes tc.n) :
    (clientgenexp h random tc).bigA =
      natBytes (Bits.ofBytes tc.g ^ secretOf tc.n random % Bits.ofBytes tc.n) :=
  toBytes_eq (bigModExp_is (fromBytes_is h tc.g) (fromBytes_is h (random.take
    (if tc.n.length < 32 then tc.n.length else 32))) (fromBytes_is h tc.n) h1)

theorem clientgenexp_taken {m ck : List UInt8} (random : List UInt8) (ht : Taken h tc m ck)
    (hA : Short (clientgenexp h random tc).bigA) : Taken h (clientgenexp h random tc)
      (m ++ (clientgenexp h random tc).bigA) (ck ++ (clientgenexp h random tc).bigA) :=
  ⟨update_absorbed ht.hash hA, update_absorbed ht.ckhash hA⟩

/-- **The key of the client**, and its response; it does not take a number that is not below the modulus. -/
theorem clientgetkey_eq {m ck : List UInt8} (ht : Taken h tc m ck) (h1 : 1 < Bits.ofBytes tc.n)
    (hB : Short serverval) (hn : Short tc.n) (hv : Bits.ofBytes tc.v < Bits.ofBytes tc.n) {key : List UInt8}
    (hk : key = keyOf (natBytes (clientS (Bits.ofBytes serverval) (Bits.ofBytes tc.v) (Bits.ofBytes tc.n)
      (Bits.ofBytes tc.p) (scrambleOf serverval) (Bits.ofBytes tc.a)))) {resp : List UInt8}
    (hr : resp = sha1 (m ++ serverval ++ key)) :
    ((clientgetkey h tc serverval).2 = if scrambleOf serverval = 0 ∨ Bits.ofBytes tc.n ≤ Bits.ofBytes serverval ∨
      Bits.ofBytes serverval = 0 then none else some key) ∧
    ((clientgetkey h tc serverval).2 = some key → (clientgetkey h tc serverval).1.sessionResponse = resp ∧
      (clientgetkey h tc serverval).1.ckhash.Absorbed h.big (ck ++ resp ++ key)) := by
  have hN := fromBytes_is h tc.n
  have hb := fromBytes_is h serverval
  have hV := fromBytes_is h tc.v
  have hzero := word_is h (n := 0) (by decide)
  have hu := scrambleOf_lt serverval
  unfold clientgetkey
  dsimp only
  rw [scramble_eq h hB]
  by_cases hu0 : scrambleOf serverval = 0
  · rw [if_pos hu0, if_pos (Or.inl hu0)]
    exact ⟨rfl, fun hc => absurd hc.symm (Option.some_ne_none _)⟩
  · rw [if_neg hu0]
    by_cases hbad : Bits.ofBytes tc.n ≤ Bits.ofBytes serverval ∨ Bits.ofBytes serverval = 0
    · rw [if_pos (hbad.imp (fun hc hl => absurd ((cmp_lt hb hN).mp hl) (by omega)) (cmp_eq hb hzero).mpr),
        if_pos (Or.inr hbad)]
      exact ⟨rfl, fun hc => absurd hc.symm (Option.some_ne_none _)⟩
    · have hlt : Bits.ofBytes serverval < Bits.ofBytes tc.n := by omega
      rw [if_neg (not_or.mpr ⟨fun hc => hc ((cmp_lt hb hN).mpr hlt), fun hc => by
        have := (cmp_eq hb hzero).mp hc
        omega⟩), if_neg (not_or.mpr ⟨hu0, hbad⟩)]
      -- the verifier is taken off
      have hbase : Is h.w (bigSub h (if BigNum.cmp (fromBytes h serverval) (fromBytes h tc.v) = .lt then
            bigAdd h (fromBytes h serverval) (fromBytes h serverval) (fromBytes h tc.n)
          else fromBytes h serverval) (if BigNum.cmp (fromBytes h serverval) (fromBytes h tc.v) = .lt then
            bigAdd h (fromBytes h serverval) (fromBytes h serverval) (fromBytes h tc.n)
          else fromBytes h serverval) (fromBytes h tc.v))
          ((if Bits.ofBytes serverval < Bits.ofBytes tc.v then
            Bits.ofBytes serverval + Bits.ofBytes tc.n - Bits.ofBytes tc.v
          else Bits.ofBytes serverval - Bits.ofBytes tc.v : Nat) : Int) := by
        by_cases hlv : Bits.ofBytes serverval < Bits.ofBytes tc.v
        · rw [if_pos ((cmp_lt hb hV).mpr hlv), if_pos hlv]
          exact bigSub_is (bigAdd_is hb hN) hV (by omega)
        · rw [if_neg fun hc => hlv ((cmp_lt hb hV).mp hc), if_neg hlv]
          exact bigSub_is hb hV (by omega)
      have hsum := bigAdd_is (r := bigMulInt h (fromBytes h tc.p) (scrambleOf serverval))
        (bigMulInt_is (fromBytes_is h tc.p) hu) (fromBytes_is h tc.a)
      have hS := bigModExp_is (r := zero) hbase hsum hN h1
      rw [toBytes_eq hS, sessionkey_eq h (natBytes_short hn (Nat.le_of_lt (Nat.mod_lt _ (by omega))))]
      have hkl : Short key := by
        unfold Short
        rw [hk, keyOf_length]
        decide
      change _ = keyOf (natBytes (_ ^ _ % _)) at hk
      rw [← hk]
      have hm := update_absorbed (update_absorbed ht.hash hB) hkl
      rw [sha1Final_eq hm, ← hr]
      refine ⟨rfl, fun _ => ⟨rfl, ?_⟩⟩
      refine update_absorbed (update_absorbed ht.ckhash ?_) hkl
      rw [hr]
      exact short_sha1 _

end

/-! ## a run -/

/-- a power by squares -/
def powMod (n : Nat) : Nat → Nat → Nat → Nat
  | 0, _, _ => 1 % n
  | k + 1, x, e => if e % 2 = 1 then x * powMod n k (x * x % n) (e / 2) % n else powMod n k (x * x % n) (e / 2)

theorem powMod_eq (n k : Nat) : ∀ x e : Nat, e < 2 ^ k → powMod n k x e = x ^ e % n := by
  induction k with
  | zero =>
    intro x e he
    rw [show e = 0 by omega]
    rfl
  | succ k ih =>
    intro x e he
    have hh : powMod n k (x * x % n) (e / 2) = x ^ (2 * (e / 2)) % n := by
      rw [ih _ _ (by rw [Nat.pow_succ] at he; omega), ← Nat.pow_mod, ← Nat.pow_two, ← Nat.pow_mul]
    unfold powMod
    rw [hh]
    by_cases ho : e % 2 = 1
    · rw [if_pos ho, Nat.mul_mod_mod, ← Nat.pow_succ']
      congr 2
      omega
    · rw [if_neg ho]
      congr 2
      omega

/-- two machines, what both sides know, and the random bytes -/
structure Setup where
  hs : Host
  hc : Host
  tce : Confent
  user : CStr
  s : List UInt8
  pass : CStr
  rb : List UInt8
  ra : List UInt8

namespace Setup

def u (p : Setup) : List UInt8 := p.user.bytes

def password (p : Setup) : List UInt8 := p.pass.bytes

def ent (p : Setup) : Pwent := ⟨p.u, verifier p.hs p.tce.modulus p.tce.generator p.s p.u p.password, p.s⟩

/-- the server that has sent its number -/
def server (p : Setup) : TServer := servergenexp p.hs p.rb (serveropenraw p.hs p.ent p.tce)

/-- the client that has sent its number, and has the password -/
def client (p : Setup) (tc : TClient) : TClient := clientpasswd p.hc (clientgenexp p.hc p.ra tc) p.pass

/-- the number of the password, and the secrets -/
def x (p : Setup) : Nat := passwordOf p.s p.u p.password
def n (p : Setup) : Nat := Bits.ofBytes p.tce.modulus
def g (p : Setup) : Nat := Bits.ofBytes p.tce.generator
def a (p : Setup) : Nat := secretOf p.tce.modulus p.ra
def b (p : Setup) : Nat := secretOf p.tce.modulus p.rb

/-- the numbers that are sent -/
def bigA (p : Setup) : Nat := p.g ^ p.a % p.n
def bigB (p : Setup) : Nat := publicB p.g (p.g ^ p.x % p.n) p.n p.b

/-- the key -/
def key (p : Setup) : List UInt8 :=
  keyOf (natBytes (serverS (p.g ^ p.x % p.n) p.n (scrambleOf (natBytes p.bigB)) p.bigA p.b))

/-- the digest that the client sends, and that with which the server answers -/
def proof (p : Setup) : List UInt8 := sha1 (opening p.tce.modulus p.tce.generator p.u p.s ++ natBytes p.bigA ++
  natBytes p.bigB ++ p.key)

def answer (p : Setup) : List UInt8 := sha1 (natBytes p.bigA ++ p.proof ++ p.key)

variable {p : Setup}

theorem key_short : Short p.key := by
  unfold Short key
  rw [keyOf_length]
  decide

/-- what the server does with the digest of the client -/
theorem server_accepts {ts : TServer} {new : List UInt8} (hh : Hashed p.hs ts new (natBytes p.bigA)
      (natBytes p.bigB ++ p.key) (opening p.tce.modulus p.tce.generator p.u p.s ++ natBytes p.bigA ++
        natBytes p.bigB ++ p.key)) (hk : ts.sessionKey = p.key) :
    (serververify p.hs ts p.proof).2 = true ∧ (sha1 (natBytes p.bigB ++ p.key) ≠ p.proof →
      (serververify p.hs ts p.proof).1.sessionResponse = p.answer) := by
  have hold := sha1Final_eq hh.oldckhash
  have hnew : sha1Final p.hs.big ts.ckhash = p.proof := sha1Final_eq hh.ckhash
  unfold serververify
  dsimp only
  rw [hold, hnew]
  by_cases hc : sha1 (natBytes p.bigB ++ p.key) = p.proof
  · rw [if_pos hc]
    exact ⟨rfl, fun hne => absurd hc hne⟩
  · rw [if_neg hc, if_pos rfl]
    refine ⟨rfl, fun _ => ?_⟩
    have hans := update_absorbed (update_absorbed hh.hash (d := p.proof) (short_sha1 _)) (d := p.key) key_short
    rw [hk]
    exact sha1Final_eq hans

theorem client_accepts {tc : TClient} (hh : tc.ckhash.Absorbed p.hc.big (natBytes p.bigA ++ p.proof ++ p.key)) :
    (clientverify p.hc tc p.answer).2 = true := by
  unfold clientverify
  rw [sha1Final_eq hh]
  exact decide_eq_true rfl

/-- what a client that could be opened says about the parameters -/
theorem params {tc : TClient} (ho : clientopen p.hc p.user p.tce.modulus p.tce.generator p.s = some (some tc)) :
    Short p.tce.modulus ∧ Short p.tce.generator ∧ 1 < p.n ∧
      tc = ⟨p.tce.modulus, p.tce.generator, p.s, [], [], [], [],
        opened p.hc p.tce.modulus p.tce.generator p.u p.s, p.hc.init, p.u, [], []⟩ := by
  obtain ⟨⟨i, hi, hc⟩, -, -, htc⟩ := clientopen_some ho
  obtain ⟨-, h1, h2, h3⟩ := (preParams_ok i hi).2 _ hc
  refine ⟨?_, ?_, h3, htc⟩
  · exact Nat.lt_of_le_of_lt (Nat.add_le_add_right h1 63) (by decide)
  · exact Nat.lt_of_le_of_lt (Nat.add_le_add_right h2 63) (by decide)

/-- and about the name and the salt -/
theorem fits {tc : TClient} (ho : clientopen p.hc p.user p.tce.modulus p.tce.generator p.s = some (some tc)) :
    Short p.u ∧ Short p.s := by
  obtain ⟨-, h1, h2, -⟩ := clientopen_some ho
  unfold CStr.length maxUserLen at h1
  unfold maxSaltLen at h2
  unfold Short u
  omega

section
variable (hu : Short p.u) (hs : Short p.s) (hp : Short p.password)
include hu hs hp

theorem verifier_value (h1 : 1 < p.n) : Bits.ofBytes p.ent.password = p.g ^ p.x % p.n := by
  have hv := verifier_eq p.hs (g := p.tce.generator) hs hu hp h1
  show Bits.ofBytes (verifier p.hs p.tce.modulus p.tce.generator p.s p.u p.password) = _
  rw [hv, ofBytes_natBytes]
  rfl

section
variable (hn : Short p.tce.modulus) (hg : Short p.tce.generator) (h1 : 1 < p.n)
include hn hg h1

/-- the server, when it has sent its number -/
theorem server_eq : p.server.bigB = natBytes p.bigB ∧ Short p.server.bigB ∧ p.bigB ≤ p.n ∧
    Bits.ofBytes p.server.b = p.b ∧ Hashed p.hs p.server [] [] (natBytes p.bigB)
      (opening p.tce.modulus p.tce.generator p.u p.s) := by
  have hopen : Hashed p.hs (serveropenraw p.hs p.ent p.tce) [] [] []
      (opening p.tce.modulus p.tce.generator p.u p.s) := serveropenraw_hashed p.hs hn hg hu hs
  obtain ⟨hB, hb⟩ := servergenexp_eq p.hs p.rb (serveropenraw p.hs p.ent p.tce) h1
  have hv : Bits.ofBytes (serveropenraw p.hs p.ent p.tce).v = p.g ^ p.x % p.n := verifier_value hu hs hp h1
  rw [hv] at hB
  change p.server.bigB = natBytes p.bigB at hB
  have hle : p.bigB ≤ p.n := publicB_le (Nat.mod_lt _ (by omega))
  have hsh : Short p.server.bigB := by
    rw [hB]
    exact natBytes_short hn hle
  have hh := servergenexp_hashed p.rb hopen hsh
  refine ⟨hB, hsh, hle, hb, ?_⟩
  rw [← hB]
  exact hh

/-- the client, when it has sent its number -/
theorem client_eq {tc : TClient} (ho : clientopen p.hc p.user p.tce.modulus p.tce.generator p.s = some (some tc)) :
    (clientgenexp p.hc p.ra tc).bigA = natBytes p.bigA ∧ Short (natBytes p.bigA) ∧
    Bits.ofBytes (p.client tc).a = p.a ∧ Bits.ofBytes (p.client tc).p = p.x ∧
    Bits.ofBytes (p.client tc).v = p.g ^ p.x % p.n ∧ (p.client tc).n = p.tce.modulus ∧
    Taken p.hc (p.client tc) (opening p.tce.modulus p.tce.generator p.u p.s ++ natBytes p.bigA)
      (natBytes p.bigA) := by
  obtain ⟨-, -, -, rfl⟩ := params ho
  have hA : (clientgenexp p.hc p.ra _).bigA = natBytes p.bigA := clientgenexp_eq p.hc p.ra
    ⟨p.tce.modulus, p.tce.generator, p.s, [], [], [], [],
        opened p.hc p.tce.modulus p.tce.generator p.u p.s, p.hc.init, p.u, [], []⟩ h1
  have hsh : Short (natBytes p.bigA) := natBytes_short hn (Nat.le_of_lt (Nat.mod_lt _ (by
    have : 0 < Bits.ofBytes p.tce.modulus := Nat.lt_trans Nat.one_pos h1
    exact this)))
  have hsec := secret_eq p.hc hs hu hp
  refine ⟨hA, hsh, rfl, ?_, ?_, rfl, ?_⟩
  · show Bits.ofBytes (toBytes p.hc (fromBytes p.hc (secret p.hc p.s p.u p.password))) = _
    rw [toBytes_eq (fromBytes_is p.hc _), ofBytes_natBytes, hsec]
    rfl
  · show Bits.ofBytes (verifier p.hc p.tce.modulus p.tce.generator p.s p.u p.password) = _
    rw [verifier_eq p.hc hs hu hp h1, ofBytes_natBytes]
    rfl
  · have hopen : Taken p.hc ⟨p.tce.modulus, p.tce.generator, p.s, [], [], [], [],
        opened p.hc p.tce.modulus p.tce.generator p.u p.s, p.hc.init, p.u, [], []⟩
        (opening p.tce.modulus p.tce.generator p.u p.s) [] :=
      ⟨opened_absorbed p.hc hn hg hu hs, init_absorbed p.hc⟩
    have ht := clientgenexp_taken p.ra hopen (by rw [hA]; exact hsh)
    rw [hA, List.nil_append] at ht
    exact ⟨ht.hash, ht.ckhash⟩

/-- the server, when it has the number of the client -/
theorem server_key {tc : TClient} (ho : clientopen p.hc p.user p.tce.modulus p.tce.generator p.s = some (some tc)) {r : Nat}
    (hr : r = residue (p.g ^ p.x % p.n) p.n (scrambleOf (natBytes p.bigB)) p.bigA) :
    ((servergetkey p.hs p.server (clientgenexp p.hc p.ra tc).bigA).2 =
      if r ≤ 1 ∨ r + 1 = p.n then none else some p.key) ∧
    (¬(r ≤ 1 ∨ r + 1 = p.n) →
      (servergetkey p.hs p.server (clientgenexp p.hc p.ra tc).bigA).1.sessionKey = p.key ∧
      Hashed p.hs (servergetkey p.hs p.server (clientgenexp p.hc p.ra tc).bigA).1 (natBytes p.bigA ++ p.key)
        (natBytes p.bigA) (natBytes p.bigB ++ p.key)
        (opening p.tce.modulus p.tce.generator p.u p.s ++ natBytes p.bigA ++ natBytes p.bigB ++ p.key)) := by
  obtain ⟨hB, hBs, -, hb, hh⟩ := server_eq hu hs hp hn hg h1
  obtain ⟨hA, hAs, -⟩ := client_eq hu hs hp hn hg h1 ho
  rw [hA]
  have hv : Bits.ofBytes p.server.v = p.g ^ p.x % p.n := verifier_value hu hs hp h1
  have hkey : p.key = keyOf (natBytes (r ^ Bits.ofBytes p.server.b % p.n)) := by
    rw [hb, hr]
    rfl
  obtain ⟨hval, hrest⟩ := servergetkey_eq hh h1 hAs hBs hn (r := r) (by
    rw [hr, hv, hB, ofBytes_natBytes]
    rfl) hkey
  change _ = if r ≤ 1 ∨ r + 1 = p.n then none else some p.key at hval
  refine ⟨hval, fun hc => ?_⟩
  rw [if_neg hc] at hval
  obtain ⟨h2, h3⟩ := hrest hval
  rw [hB, List.nil_append] at h3
  exact ⟨h2, h3⟩

/-- the client, when it has the number of the server -/
theorem client_key {tc : TClient} (ho : clientopen p.hc p.user p.tce.modulus p.tce.generator p.s = some (some tc)) :
    (scrambleOf (natBytes p.bigB) = 0 ∨ p.n ≤ p.bigB ∨ p.bigB = 0 →
      (clientgetkey p.hc (p.client tc) p.server.bigB).2 = none) ∧
    (¬(scrambleOf (natBytes p.bigB) = 0 ∨ p.n ≤ p.bigB ∨ p.bigB = 0) →
      (clientgetkey p.hc (p.client tc) p.server.bigB).2 = some p.key ∧
      (clientgetkey p.hc (p.client tc) p.server.bigB).1.sessionResponse = p.proof ∧
      (clientgetkey p.hc (p.client tc) p.server.bigB).1.ckhash.Absorbed p.hc.big
        (natBytes p.bigA ++ p.proof ++ p.key)) := by
  obtain ⟨hB, hBs, hBn, -, -⟩ := server_eq hu hs hp hn hg h1
  obtain ⟨-, -, ha, hx, hv, hcn, ht⟩ := client_eq hu hs hp hn hg h1 ho
  rw [hB] at hBs ⊢
  have hcn' : Bits.ofBytes (p.client tc).n = p.n := congrArg Bits.ofBytes hcn
  obtain ⟨hval, hrest⟩ := clientgetkey_eq ht (by rw [hcn']; exact h1) hBs (by rw [hcn]; exact hn) (by
    rw [hv, hcn']
    exact Nat.mod_lt _ (by omega)) rfl rfl
  rw [hcn', ofBytes_natBytes] at hval
  refine ⟨fun hc => ?_, fun hc => ?_⟩
  · rwa [if_pos hc] at hval
  · rw [if_neg hc] at hval
    -- the two powers are the same
    have hS := shared (u := scrambleOf (natBytes p.bigB)) (a := p.a) (show 0 < p.n by omega)
      (show p.bigB < p.n by omega)
    have hkey : keyOf (natBytes (clientS p.bigB (Bits.ofBytes (p.client tc).v) p.n (Bits.ofBytes (p.client tc).p)
        (scrambleOf (natBytes p.bigB)) (Bits.ofBytes (p.client tc).a))) = p.key := by
      rw [hv, hx, ha]
      exact congrArg (fun t => keyOf (natBytes t)) hS
    rw [hcn', ofBytes_natBytes, hkey] at hrest
    rw [hkey] at hval
    exact ⟨hval, hrest hval⟩

end

/-- when both sides have a key -/
theorem both {tc : TClient} (ho : clientopen p.hc p.user p.tce.modulus p.tce.generator p.s = some (some tc))
    {ks kc : List UInt8} (hks : (servergetkey p.hs p.server (clientgenexp p.hc p.ra tc).bigA).2 = some ks)
    (hkc : (clientgetkey p.hc (p.client tc) p.server.bigB).2 = some kc) {ts : TServer} {tc' : TClient}
    (hts : ts = (servergetkey p.hs p.server (clientgenexp p.hc p.ra tc).bigA).1)
    (htc : tc' = (clientgetkey p.hc (p.client tc) p.server.bigB).1) :
    ks = p.key ∧ kc = p.key ∧ tc'.sessionResponse = p.proof ∧ (serververify p.hs ts p.proof).2 = true ∧
    (sha1 (p.server.bigB ++ p.key) ≠ p.proof → (serververify p.hs ts p.proof).1.sessionResponse = p.answer) ∧
    (clientverify p.hc tc' p.answer).2 = true := by
  obtain ⟨hn, hg, h1, -⟩ := params ho
  obtain ⟨hB, -⟩ := server_eq hu hs hp hn hg h1
  obtain ⟨hsv, hsr⟩ := server_key hu hs hp hn hg h1 ho rfl
  obtain ⟨hcn, hcr⟩ := client_key hu hs hp hn hg h1 ho
  rw [hsv] at hks
  split at hks
  · exact absurd hks.symm (Option.some_ne_none _)
  next hc1 =>
  have hc2 : ¬(scrambleOf (natBytes p.bigB) = 0 ∨ p.n ≤ p.bigB ∨ p.bigB = 0) := by
    intro hc
    rw [hcn hc] at hkc
    exact absurd hkc.symm (Option.some_ne_none _)
  obtain ⟨hsk, hh⟩ := hsr hc1
  obtain ⟨hck0, hresp, hck⟩ := hcr hc2
  rw [← hts] at hsk hh
  rw [← htc] at hresp hck
  obtain ⟨hacc, hans⟩ := server_accepts hh hsk
  rw [hB]
  exact ⟨(Option.some.inj hks).symm, Option.some.inj (hkc.symm.trans hck0), hresp, hacc, hans, client_accepts hck⟩

end

/-- **The two sides agree.** When both have a key, it is the same; the server accepts the response of the client, and
the client that of the server unless the server took it for a response of the old protocol. -/
theorem agree (hp : Short p.password) {tc : TClient}
    (ho : clientopen p.hc p.user p.tce.modulus p.tce.generator p.s = some (some tc))
    {ks kc : List UInt8} (hks : (servergetkey p.hs p.server (clientgenexp p.hc p.ra tc).bigA).2 = some ks)
    (hkc : (clientgetkey p.hc (p.client tc) p.server.bigB).2 = some kc) {ts : TServer} {tc' : TClient}
    (hts : ts = (servergetkey p.hs p.server (clientgenexp p.hc p.ra tc).bigA).1)
    (htc : tc' = (clientgetkey p.hc (p.client tc) p.server.bigB).1) :
    ks = kc ∧ (serververify p.hs ts tc'.sessionResponse).2 = true ∧
    (sha1 (p.server.bigB ++ ks) ≠ tc'.sessionResponse →
      (clientverify p.hc tc' (serververify p.hs ts tc'.sessionResponse).1.sessionResponse).2 = true) := by
  obtain ⟨hu, hs⟩ := fits ho
  obtain ⟨rfl, rfl, hresp, hacc, hans, hver⟩ := both hu hs hp ho hks hkc hts htc
  rw [hresp]
  refine ⟨rfl, hacc, fun hne => ?_⟩
  rw [hans hne]
  exact hver

theorem x_lt (p : Setup) : p.x < 2 ^ 160 := by
  have hl := Bits.ofBytes_lt (sha1 (p.s ++ sha1 (p.u ++ ([58] ++ p.password))))
  rwa [sha1_length] at hl

/-- the numbers of a run, each made from those before -/
def Numbers (p : Setup) : Prop :=
  ∀ v ∈ [powMod p.n 160 p.g p.x], ∀ bigB ∈ [publicB p.g v p.n p.b], ∀ u ∈ [scrambleOf (natBytes bigB)],
    ∀ r ∈ [powMod p.n 32 v u * p.bigA % p.n], u ≠ 0 ∧ bigB < p.n ∧ bigB ≠ 0 ∧ ¬(r ≤ 1 ∨ r + 1 = p.n)

instance (p : Setup) : Decidable p.Numbers := by
  unfold Numbers
  infer_instance

/-- with such numbers both sides have a key -/
theorem keys_of {i : Nat} (htab : getpreparam i = some p.tce) (hu : p.user.length < maxUserLen)
    (hs : p.s.length ≤ maxSaltLen) (hp : Short p.password) (hnum : p.Numbers) :
    ∃ tc ts tc', clientopen p.hc p.user p.tce.modulus p.tce.generator p.s = some (some tc) ∧
      servergetkey p.hs p.server (clientgenexp p.hc p.ra tc).bigA = (ts, some p.key) ∧
      clientgetkey p.hc (p.client tc) p.server.bigB = (tc', some p.key) := by
  obtain ⟨hu0, hlt, hne, hr⟩ := hnum _ (List.mem_singleton.mpr rfl) _ (List.mem_singleton.mpr rfl) _
    (List.mem_singleton.mpr rfl) _ (List.mem_singleton.mpr rfl)
  have hx := powMod_eq p.n 160 p.g p.x p.x_lt
  have hB : publicB p.g (powMod p.n 160 p.g p.x) p.n p.b = p.bigB := by
    rw [hx]
    rfl
  rw [hB] at hu0 hlt hne hr
  rw [powMod_eq p.n 32 _ _ (scrambleOf_lt _), hx] at hr
  obtain ⟨tc, ho⟩ : ∃ tc, clientopen p.hc p.user p.tce.modulus p.tce.generator p.s = some (some tc) := by
    rw [clientopen_table htab, if_pos ⟨hu, hs⟩]
    exact ⟨_, rfl⟩
  obtain ⟨hn, hg, h1, -⟩ := params ho
  obtain ⟨hu, hs⟩ := fits ho
  have hks := (server_key hu hs hp hn hg h1 ho rfl).1.trans (if_neg hr)
  exact ⟨tc, _, _, ho, Prod.ext rfl hks, Prod.ext rfl ((client_key hu hs hp hn hg h1 ho).2 (by omega)).1⟩

/-- a router and a PC, the user `root` with the password `$1$ab$x`, and the first of the tables -/
def root : Setup where
  hs := ⟨true, .thirtyTwoBit, List.replicate 64 0, rfl⟩
  hc := ⟨false, .sixtyFourBit, List.replicate 64 255, rfl⟩
  tce := (gettcid 1).getD ⟨[], []⟩
  user := ⟨[114, 111, 111, 116], by decide⟩
  s := []
  pass := ⟨[36, 49, 36, 97, 98, 36, 120], by decide⟩
  rb := List.replicate 31 0 ++ [3]
  ra := List.replicate 31 0 ++ [5]

theorem root_open : getpreparam 0 = some root.tce := by
  decide +kernel

theorem root_numbers : root.Numbers := by
  decide +kernel

theorem root_keys : ∃ tc ts tc',
    clientopen root.hc root.user root.tce.modulus root.tce.generator root.s = some (some tc) ∧
    servergetkey root.hs root.server (clientgenexp root.hc root.ra tc).bigA = (ts, some root.key) ∧
    clientgetkey root.hc (root.client tc) root.server.bigB = (tc', some root.key) :=
  keys_of root_open (by decide) (by decide) (by unfold Short; decide) root_numbers

/-- in this run both sides have a key -/
theorem agree_root : ∃ tc ts tc' ks kc,
    clientopen root.hc root.user root.tce.modulus root.tce.generator root.s = some (some tc) ∧
    servergetkey root.hs root.server (clientgenexp root.hc root.ra tc).bigA = (ts, some ks) ∧
    clientgetkey root.hc (root.client tc) root.server.bigB = (tc', some kc) ∧
    ks = kc ∧ (serververify root.hs ts tc'.sessionResponse).2 = true ∧
    (sha1 (root.server.bigB ++ ks) ≠ tc'.sessionResponse →
      (clientverify root.hc tc' (serververify root.hs ts tc'.sessionResponse).1.sessionResponse).2 = true) := by
  obtain ⟨tc, ts, tc', ho, hks, hkc⟩ := root_keys
  exact ⟨tc, ts, tc', root.key, root.key, ho, hks, hkc, agree (by unfold Short; decide) ho (congrArg Prod.snd hks)
    (congrArg Prod.snd hkc) (congrArg Prod.fst hks).symm (congrArg Prod.fst hkc).symm⟩

end Setup

end Ead.Srp
