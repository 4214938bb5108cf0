import Firmware.Ead.Bounds
import Firmware.Ead.Srp

/-!
# ead: the client

`ead-client.c`: what `send_packet` takes for a reply, and the handlers of the replies, with a check
at every use of `msgbuf` and every copy out of it.  `none` is a read behind the datagram, a write
behind `msgbuf`, a copy that is too long for its buffer or of a negative length, or a step of the SRP
library outside of its table or of the buffers of `struct t_client`.

* `Takes`         the tests of `send_packet`;
* `handleReply`   the handlers;
* `Whole`         the reply is as long as its handler believes;
* `reply_iff`     when a handler stays inside.
-/

set_option linter.unusedVariables false

namespace Ead
open Img Word

/-- `sizeof(struct ead_msg)` -/
def msgSize : Nat := 20

/-- `sizeof(msgbuf)` -/
def recvSize : Nat := 1500

def authMd5 : Nat := 1

/-- what `read` left in `msgbuf`: the first `len` bytes are the datagram -/
structure Datagram where
  len : Nat
  msgbuf : List UInt8
  size : msgbuf.length = recvSize
  fits : len ≤ recvSize

def Datagram.magic (r : Datagram) : UInt32 := get32 true (slice r.msgbuf 0 4)
def Datagram.msgLen (r : Datagram) : UInt32 := get32 true (slice r.msgbuf 4 4)
def Datagram.msgType (r : Datagram) : UInt32 := get32 true (slice r.msgbuf 8 4)
def Datagram.nid (r : Datagram) : UInt16 := get16 true (slice r.msgbuf 12 2)
def Datagram.byte (r : Datagram) (off : Nat) : UInt8 := r.msgbuf.getD off 0

/-- the variables that the handlers use; `out` is what was written to the standard output -/
structure Client where
  username : CStr
  nid : UInt16
  sid : List UInt8
  authType : Nat
  salt : List UInt8
  pwSalt : List UInt8
  b : List UInt8
  crypt : Crypt
  out : List UInt8

/-- the machine of the SRP library, whether `t_clientopen` gets its memory, and what `t_clientverify` answers -/
structure ClientEnv where
  host : Srp.Host
  malloc : Bool
  clientverify : Bool

/-- the replies that are waited for -/
inductive Reply where
  | pong
  | ackUsername
  | prime
  | sendB
  | doneAuth
  | resultCmd

def Reply.type : Reply → UInt32
  | .pong => 1
  | .ackUsername => 3
  | .prime => 5
  | .sendB => 7
  | .doneAuth => 9
  | .resultCmd => 11

/-! ## what is taken -/

/-- `sizeof(struct ead_msg) + ntohl(msg->len)` -/
def Datagram.total (wide : Bool) (r : Datagram) : Nat :=
  let n := msgSize + r.msgLen.toNat
  if wide then n else n % 2 ^ 32

/-- the tests of `send_packet` -/
structure Takes (wide : Bool) (c : Client) (r : Datagram) (type : UInt32) : Prop where
  header : ¬ r.len < msgSize
  len : ¬ r.len < r.total wide
  magic : r.magic = UInt32.ofNat eadMagic
  nid : ¬ (c.nid ≠ 0xffff ∧ r.nid ≠ c.nid)
  type : r.msgType = type

/-! ## the handlers -/

variable {α : Type}

/-- a read of the datagram -/
def Datagram.read (r : Datagram) (off : Nat) (n : Int) (k : Option α) : Option α :=
  within r.len off n k

/-- a write to `msgbuf` -/
def Datagram.write (r : Datagram) (off : Nat) (n : Int) (k : Option α) : Option α :=
  within recvSize off n k

/-- the name is printed while the node is not known; its end is the NUL that was written -/
def handlePong (c : Client) (r : Datagram) : Option (Client × Bool) :=
  let len := toInt (r.msgLen - 2)
  if len ≤ 0 then some (c, false)
  else r.write (msgSize + 2 + len.toNat) 1 <| r.read msgSize 2 <|
    let c := { c with authType := (get16 true (slice r.msgbuf msgSize 2)).toNat }
    if c.nid = 0xffff then r.read (msgSize + 2) len (some ({ c with sid := slice r.msgbuf 14 2 }, true))
    else some ({ c with sid := slice r.msgbuf 14 2 }, true)

/-- the end of `handle_prime`: the index into the table is not checked -/
def openClient (env : ClientEnv) (c : Client) (prime : UInt8) : Option (Client × Bool) :=
  (Srp.getpreparam prime.toNat).bind fun tcp =>
    if env.malloc then
      (Srp.clientopen env.host c.username tcp.modulus tcp.generator c.salt).map fun tc => (c, tc.isSome)
    else some (c, false)

def handlePrime (env : ClientEnv) (c : Client) (r : Datagram) : Option (Client × Bool) :=
  r.read (msgSize + 1) 1 <|
  let len := (r.byte (msgSize + 1)).toNat
  r.read (msgSize + 2) len <| within Srp.maxSaltLen 0 len <|
  let c := { c with salt := slice r.msgbuf (msgSize + 2) len }
  if c.authType = authMd5 then
    r.read (msgSize + 2 + Srp.maxSaltLen) Srp.maxSaltLen <| r.read msgSize 1 <|
      openClient env { c with
        pwSalt := slice r.msgbuf (msgSize + 2 + Srp.maxSaltLen) (Srp.maxSaltLen - 1) ++ [0] } (r.byte msgSize)
  else r.read msgSize 1 <| openClient env c (r.byte msgSize)

def handleB (c : Client) (r : Datagram) : Option (Client × Bool) :=
  let len := toInt (r.msgLen - 1)
  r.read (msgSize + 1) len <| within maxParamLen.toNat 0 len <|
    some ({ c with b := slice r.msgbuf (msgSize + 1) len.toNat }, true)

def handleDoneAuth (env : ClientEnv) (c : Client) (r : Datagram) : Option (Client × Bool) :=
  r.read msgSize 20 <| some (c, env.clientverify)

/-- the message is decrypted where it is -/
def handleCmdData (aes : Cipher) (c : Client) (r : Datagram) : Option (Client × Bool) :=
  decryptIn aes c.crypt r.len msgSize r.msgLen (r.msgbuf.drop msgSize) fun d =>
    let c := { c with crypt := d.crypt }
    let datalen := d.ret - 1
    if datalen < 0 then some (c, false)
    else
      r.read (msgSize + encSize + 1) datalen <| r.read (msgSize + encSize) 1 <|
        some ({ c with out := c.out ++ slice d.body (encSize + 1) datalen.toNat },
          d.body.getD encSize 0 ≠ 0)

def handleReply (aes : Cipher) (env : ClientEnv) (c : Client) (r : Datagram) :
    Reply → Option (Client × Bool)
  | .pong => handlePong c r
  | .ackUsername => some (c, true)
  | .prime => handlePrime env c r
  | .sendB => handleB c r
  | .doneAuth => handleDoneAuth env c r
  | .resultCmd => handleCmdData aes c r

/-! ## how long a reply has to be -/

/-- the reply is as long as its handler believes, and its parts fit where they are copied -/
def Whole (env : ClientEnv) (c : Client) (r : Datagram) : Reply → Prop
  | .pong => msgSize + r.msgLen.toNat ≠ recvSize
  | .ackUsername => True
  | .prime => msgSize + 2 ≤ r.len ∧ (r.byte (msgSize + 1)).toNat ≤ Srp.maxSaltLen ∧
      msgSize + 2 + (r.byte (msgSize + 1)).toNat ≤ r.len ∧
      (c.authType = authMd5 → msgSize + 2 + 2 * Srp.maxSaltLen ≤ r.len) ∧
      (r.byte msgSize).toNat < Srp.preParams.length ∧
      (env.malloc = true → c.username.length < Srp.maxUserLen)
  | .sendB => 1 ≤ r.msgLen.toNat ∧ r.msgLen.toNat ≤ 1 + maxParamLen.toNat
  | .doneAuth => msgSize + 20 ≤ r.len
  | .resultCmd => 0 ≤ toInt r.msgLen ∨ msgSize + encSize ≤ r.len

theorem within_isSome {size off : Nat} {n : Int} {k : Option α} :
    (within size off n k).isSome = true ↔ (0 ≤ n ∧ off + n ≤ (size : Int)) ∧ k.isSome = true := by
  unfold within
  split
  · next h => exact (and_iff_right h).symm
  · next h => exact iff_of_false nofun fun hk => h hk.1

/-- when the SRP library stays inside its table and its buffers -/
theorem openClient_iff (env : ClientEnv) (c : Client) (prime : UInt8) (hs : c.salt.length ≤ Srp.maxSaltLen) :
    (openClient env c prime).isSome = true ↔ prime.toNat < Srp.preParams.length ∧
      (env.malloc = true → c.username.length < Srp.maxUserLen) := by
  unfold openClient
  by_cases hi : prime.toNat < Srp.preParams.length
  · obtain ⟨tcp, htcp⟩ := Option.isSome_iff_exists.mp (Srp.getpreparam_isSome.mpr hi)
    rw [htcp, Option.bind_some, Srp.clientopen_table htcp]
    cases env.malloc with
    | false => exact iff_of_true rfl ⟨hi, nofun⟩
    | true =>
      rw [if_pos rfl]
      by_cases hu : c.username.length < Srp.maxUserLen
      · rw [if_pos ⟨hu, hs⟩]
        exact iff_of_true rfl ⟨hi, fun _ => hu⟩
      · rw [if_neg fun h => hu h.1]
        exact iff_of_false nofun fun h => hu (h.2 rfl)
  · have hnone : Srp.getpreparam prime.toNat = none :=
      Option.not_isSome_iff_eq_none.mp fun h => hi (Srp.getpreparam_isSome.mp h)
    rw [hnone]
    exact iff_of_false nofun fun h => hi h.1

section
variable {aes : Cipher} {env : ClientEnv} {wide : Bool} {c : Client} {r : Datagram} {type : UInt32}
  (h : Takes wide c r type)
include h

/-- the length field is that of the datagram, or the sum wrapped -/
theorem Takes.lens : msgSize ≤ r.len ∧ r.len ≤ recvSize ∧
    (msgSize + r.msgLen.toNat ≤ r.len ∨ 2 ^ 32 - msgSize ≤ r.msgLen.toNat) := by
  have h1 := h.header
  have h2 := h.len
  have h3 := r.msgLen.toNat_lt
  have h4 := r.fits
  unfold Datagram.total at h2
  dsimp only at h2
  unfold msgSize recvSize at *
  refine ⟨by omega, h4, ?_⟩
  split at h2 <;> omega

/-- `ntohl(msg->len) - k` as an `int` -/
theorem Takes.toInt_sub {k : UInt32} (hk : k.toNat ≤ 2) : toInt (r.msgLen - k) =
    if msgSize + r.msgLen.toNat ≤ r.len then (r.msgLen.toNat : Int) - k.toNat
    else (r.msgLen.toNat : Int) - k.toNat - 2 ^ 32 := by
  obtain ⟨h1, h2, h3⟩ := h.lens
  have h4 := r.msgLen.toNat_lt
  have hsub := UInt32.toNat_sub r.msgLen k
  unfold toInt
  rw [hsub]
  unfold msgSize recvSize at *
  split <;> split <;> omega

theorem pong_iff : (handlePong c r).isSome = true ↔ Whole env c r .pong := by
  obtain ⟨h1, h2, h3⟩ := h.lens
  have hn := h.toInt_sub (k := 2) (by decide)
  have h4 := r.msgLen.toNat_lt
  have hk : (2 : UInt32).toNat = 2 := rfl
  rw [hk] at hn
  unfold handlePong Datagram.read Datagram.write Whole
  dsimp only
  generalize toInt (r.msgLen - 2) = n at hn ⊢
  unfold msgSize recvSize at *
  by_cases hle : n ≤ 0
  · rw [if_pos hle]
    refine iff_of_true rfl ?_
    split at hn <;> omega
  · rw [if_neg hle, within_isSome, within_isSome]
    have hn : n = (r.msgLen.toNat : Int) - 2 := by
      split at hn <;> omega
    have hread : 0 ≤ n ∧ ((20 + 2 : Nat) : Int) + n ≤ (r.len : Int) := by omega
    split
    · rw [within_isSome, and_iff_left (b := (some _).isSome = true) rfl]
      omega
    · rw [and_iff_left (b := (some _).isSome = true) rfl]
      omega

theorem prime_iff : (handlePrime env c r).isSome = true ↔ Whole env c r .prime := by
  obtain ⟨h1, h2, h3⟩ := h.lens
  have hsalt : (slice r.msgbuf (msgSize + 2) (r.byte (msgSize + 1)).toNat).length ≤
      (r.byte (msgSize + 1)).toNat := List.length_take_le _ _
  unfold handlePrime Datagram.read Whole
  dsimp only
  generalize slice r.msgbuf (msgSize + 2) (r.byte (msgSize + 1)).toNat = salt at hsalt ⊢
  generalize (r.byte (msgSize + 1)).toNat = n at hsalt ⊢
  rw [within_isSome, within_isSome, within_isSome]
  by_cases hn : n ≤ Srp.maxSaltLen
  · have hopen (pwSalt : List UInt8) :=
      openClient_iff env { c with salt := salt, pwSalt := pwSalt } (r.byte msgSize) (Nat.le_trans hsalt hn)
    unfold msgSize Srp.maxSaltLen at *
    by_cases ha : c.authType = authMd5
    · rw [if_pos ha, within_isSome, within_isSome, hopen]
      constructor
      · intro ⟨h4, h5, h6, h7, h8, hindex, hname⟩
        exact ⟨by omega, hn, by omega, fun _ => by omega, hindex, hname⟩
      · intro ⟨h4, _, h5, h6, hindex, hname⟩
        have := h6 ha
        exact ⟨by omega, by omega, by omega, by omega, by omega, hindex, hname⟩
    · rw [if_neg ha, within_isSome, hopen c.pwSalt]
      constructor
      · intro ⟨h4, h5, h6, h7, hindex, hname⟩
        exact ⟨by omega, hn, by omega, fun h => absurd h ha, hindex, hname⟩
      · intro ⟨h4, _, h5, _, hindex, hname⟩
        exact ⟨by omega, by omega, by omega, by omega, hindex, hname⟩
  · refine iff_of_false (fun hh => hn ?_) fun hh => hn hh.2.1
    have := hh.2.2.1.2
    omega

theorem sendB_iff : (handleB c r).isSome = true ↔ Whole env c r .sendB := by
  obtain ⟨h1, h2, h3⟩ := h.lens
  have hn := h.toInt_sub (k := 1) (by decide)
  have h4 := r.msgLen.toNat_lt
  have hk : (1 : UInt32).toNat = 1 := rfl
  have hm : maxParamLen.toNat = 256 := rfl
  rw [hk] at hn
  unfold handleB Datagram.read Whole
  dsimp only
  generalize toInt (r.msgLen - 1) = n at hn ⊢
  rw [within_isSome, within_isSome, hm, and_iff_left (b := (some _).isSome = true) rfl]
  unfold msgSize recvSize at *
  split at hn <;> omega

omit h in
theorem doneAuth_iff : (handleDoneAuth env c r).isSome = true ↔ Whole env c r .doneAuth := by
  unfold handleDoneAuth Datagram.read Whole
  rw [within_isSome, and_iff_left (b := (some _).isSome = true) rfl]
  omega

theorem resultCmd_iff : (handleCmdData aes c r).isSome = true ↔ Whole env c r .resultCmd := by
  obtain ⟨h1, h2, h3⟩ := h.lens
  have h4 := r.msgLen.toNat_lt
  have hlen : 0 ≤ toInt r.msgLen → toInt r.msgLen = r.msgLen.toNat ∧ msgSize + toInt r.msgLen ≤ r.len := by
    unfold toInt msgSize recvSize at *
    split <;> omega
  obtain ⟨hr0, hr1⟩ := @decrypt_ret aes c.crypt r.msgLen (r.msgbuf.drop msgSize)
  unfold handleCmdData Whole
  by_cases hw : 0 ≤ toInt r.msgLen ∨ msgSize + encSize ≤ r.len
  · rw [decryptIn_eq (fun h0 => (hlen h0).2) (fun hneg => hw.resolve_left (by omega))]
    refine iff_of_true ?_ hw
    generalize decryptMessage aes c.crypt r.msgLen (r.msgbuf.drop msgSize) = d at hr0 hr1 ⊢
    generalize plainOf aes c.crypt.key (toInt r.msgLen) (r.msgbuf.drop msgSize) = plain at hr1
    dsimp only
    split
    · rfl
    next hpos =>
    have hv : d.verified = true := by
      by_contra hv
      rw [hr0 (Bool.eq_false_iff.mpr hv)] at hpos
      omega
    obtain ⟨hpad, hret⟩ := hr1 hv
    -- the length is not so far below 0 that the difference wraps
    have hret : d.ret = toInt r.msgLen - ((padOf plain).toNat + encSize) := by
      rw [hret]
      refine CInt.wrap_of_inRange ?_
      unfold CInt.inRange encSize
      unfold msgSize recvSize toInt at *
      split <;> omega
    rw [hret] at hpos ⊢
    obtain ⟨h5, h6⟩ := hlen (by unfold encSize at hpos; omega)
    unfold Datagram.read msgSize encSize at *
    rw [within_isSome, within_isSome, and_iff_left (b := (some _).isSome = true) rfl]
    omega
  · rw [decryptIn_short (by omega) (by omega)]
    exact iff_of_false nofun hw

end

/-- **A handler stays inside the datagram and the buffers** exactly if the reply is as long as it
believes. -/
theorem reply_iff (aes : Cipher) (env : ClientEnv) (wide : Bool) (c : Client) (r : Datagram)
    (reply : Reply) (h : Takes wide c r reply.type) :
    (handleReply aes env c r reply).isSome = true ↔ Whole env c r reply := by
  cases reply with
  | pong => exact pong_iff h
  | ackUsername => exact iff_of_true rfl trivial
  | prime => exact prime_iff h
  | sendB => exact sendB_iff h
  | doneAuth => exact doneAuth_iff
  | resultCmd => exact resultCmd_iff h

/-- a datagram with `len` as its length field, and nothing else in the buffer -/
def datagram (type : UInt32) (len : UInt32) (data : List UInt8) (hd : data.length ≤ 1480) :
    Datagram where
  len := msgSize + data.length
  msgbuf := put32 true (UInt32.ofNat eadMagic) ++ (put32 true len ++ (put32 true type ++
    (List.replicate 8 0 ++ (data ++ List.replicate (1480 - data.length) 0))))
  size := by
    simp only [List.length_append, put32_length, List.length_replicate, recvSize]
    omega
  fits := by
    unfold msgSize recvSize
    omega

theorem root_nul_free : (0 : UInt8) ∉ [114, 111, 111, 116] := by decide

/-- a client that knows no node, and no key -/
def client₀ : Client := ⟨⟨[114, 111, 111, 116], root_nul_free⟩, 0xffff, [0, 0], 0, [], [], [], ⟨[], 0, 0, 0, 0⟩, []⟩

theorem junk_full : (List.replicate 64 (0 : UInt8)).length = 64 := List.length_replicate

/-- a machine that has memory -/
def clientEnv : ClientEnv := ⟨⟨false, .sixtyFourBit, List.replicate 64 0, junk_full⟩, true, true⟩

theorem salt_fits (prime len : UInt8) : ([prime, len] ++ List.replicate 64 (0 : UInt8)).length ≤ 1480 := by
  rw [List.length_append, List.length_replicate]
  exact Nat.le_of_ble_eq_true rfl

/-- a node with a name of three letters, and one that takes the last of the tables and a salt of ten bytes -/
theorem reply_iff_whole : (handleReply aesFirst clientEnv client₀
      (datagram 1 5 [0, 1, 97, 98, 99] (by decide)) .pong).isSome = true ∧
    (handleReply aesFirst clientEnv client₀ (datagram 5 66 _ (salt_fits 4 10)) .prime).isSome = true := by
  constructor
  · refine (reply_iff aesFirst clientEnv true client₀ _ .pong
      ⟨by decide +kernel, by decide +kernel, by decide +kernel, by decide +kernel, by decide +kernel⟩).mpr ?_
    show msgSize + UInt32.toNat _ ≠ recvSize
    decide +kernel
  · refine (reply_iff aesFirst clientEnv true client₀ _ .prime
      ⟨by decide +kernel, by decide +kernel, by decide +kernel, by decide +kernel, by decide +kernel⟩).mpr ?_
    unfold Whole
    decide +kernel

/-- a salt of 255 bytes, in a message of the usual length; and a table that is not there -/
theorem prime_unchecked : (Takes true client₀ (datagram 5 66 _ (salt_fits 1 255)) Reply.prime.type ∧
      handleReply aesFirst clientEnv client₀ (datagram 5 66 _ (salt_fits 1 255)) .prime = none) ∧
    Takes true client₀ (datagram 5 66 _ (salt_fits 5 10)) Reply.prime.type ∧
      handleReply aesFirst clientEnv client₀ (datagram 5 66 _ (salt_fits 5 10)) .prime = none := by
  have hlong : Takes true client₀ (datagram 5 66 _ (salt_fits 1 255)) Reply.prime.type :=
    ⟨by decide +kernel, by decide +kernel, by decide +kernel, by decide +kernel, by decide +kernel⟩
  have hindex : Takes true client₀ (datagram 5 66 _ (salt_fits 5 10)) Reply.prime.type :=
    ⟨by decide +kernel, by decide +kernel, by decide +kernel, by decide +kernel, by decide +kernel⟩
  refine ⟨⟨hlong, ?_⟩, hindex, ?_⟩
  · rw [← Option.not_isSome_iff_eq_none]
    intro hs
    have hw := (prime_iff hlong).mp hs
    exact absurd hw.2.1 (by decide +kernel)
  · rw [← Option.not_isSome_iff_eq_none]
    intro hs
    have hw := (prime_iff hindex).mp hs
    exact absurd hw.2.2.2.2.1 (by decide +kernel)

end Ead
