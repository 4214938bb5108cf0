import Firmware.Ead.Client
import Firmware.Ead.Session

/-!
# ead: the command that is executed

`send_command` with the `unsigned int` of its length and a check at every use of `msgbuf`, the frame
that carries its datagram, and what the server passes to `system`.  The copy stops at 1024 bytes, the
length does not.

* `encryptMessage32`     `ead_encrypt_message` with the length as the caller passes it;
* `sendCommandIn`        `send_command` up to `sendto`; `none` is an access behind `msgbuf`;
* `system_command`       what the server executes, for any command that fits into `msgbuf`;
* `Obeyed`               the server executes the command, and nothing else;
* `obeyed_iff`           when it does.
-/

set_option linter.unusedVariables false

namespace Ead
open Img Word

/-! ## the client -/

/-- `enclen`: all of it is computed modulo `2 ^ 32`, of which 64 is a divisor -/
def encLen32 (len : UInt32) : UInt32 := UInt32.ofNat (encLen len.toNat)

/-- the loops run as long as the `int` in `enclen` is positive -/
def encryptMessage32 (aes : Cipher) (c : Crypt) (body : List UInt8) (len : UInt32) : Encrypted :=
  let c := getTxIv c
  let n := (toInt (encLen32 len)).toNat
  let body := poke body 24 [UInt8.ofNat (padFor len.toNat)]
  let body := poke body 20 (put32 true c.txIv)
  let (hash, body) := hashMessage body n
  ⟨c, encLen32 len, mapBlocks 16 (aes.encrypt c.key) ((n + 15) / 16) (poke body 0 hash.bytes)⟩

/-- the largest datagram that `sendto` takes -/
def maxDatagram : Nat := 65507

/-- `msg->len`, `msg->type` and `msg->ip`; the rest is that of the last message -/
def commandHeader (header serverip : List UInt8) (len : UInt32) : List UInt8 :=
  poke (poke (poke header 4 (put32 true len)) 8 (put32 true 10)) 16 serverip

structure Sent where
  crypt : Crypt
  /-- `sendto` refuses what is too long -/
  datagram : Option (List UInt8)

/-- `msgbuf` is `header` and `buf` -/
def sendCommandIn (aes : Cipher) (c : Crypt) (serverip header buf : List UInt8) (command : CStr) :
    Option Sent :=
  let e := encryptMessage32 aes c (commandBody buf command) (UInt32.ofNat (commandLen command))
  let n := (toInt e.len).toNat
  within msgbufSize 0 (64 * ((n + 63) / 64) : Nat) <|
  within msgbufSize 0 (16 * ((n + 15) / 16) : Nat) <|
  if msgSize + e.len.toNat > maxDatagram then some ⟨e.crypt, none⟩
  else
    within msgbufSize 0 e.len.toNat <|
    some ⟨e.crypt, some (commandHeader header serverip e.len ++ e.body.take e.len.toNat)⟩

/-! ## the network -/

/-- the Ethernet, IP and UDP headers of a broadcast to the port of the server -/
structure UdpHeader (hdr : List UInt8) : Prop where
  length : hdr.length = 42
  dhost : slice hdr 0 6 = List.replicate 6 0xff
  type : Bits.ofBytes (slice hdr 12 2) = 0x0800
  proto : Bits.ofBytes (slice hdr 23 1) = 17
  port : Bits.ofBytes (slice hdr 36 2) = eadPort

def udpFrame (hdr datagram : List UInt8) : Frame :=
  ⟨UInt32.ofNat (hdr.length + datagram.length), hdr ++ datagram⟩

/-- a session that is established: no message was lost, the keys are the same -/
structure Established (cfg : Config) (c : Crypt) (header buf : List UInt8) (s : Server) : Prop where
  headerSize : header.length = msgSize
  bufSize : buf.length = msgbufSize
  magic : Bits.ofBytes (slice header 0 4) = eadMagic
  nid : Bits.ofBytes (slice header 12 2) = 0xffff ∨ Bits.ofBytes (slice header 12 2) = cfg.nid
  sid : Bits.ofBytes (slice header 14 2) / 2 ^ 12 = cfg.instanceId
  state : s.state = typeSendCmd
  ahead : Ahead 0 c s.crypt
  iv : c.txIv.toNat + 128 < 2 ^ 32

/-- the strings that were passed to `system` -/
def systems (l : List Event) : List (List UInt8) :=
  l.filterMap fun e => match e with
    | .system cmd => some cmd
    | _ => none

/-- `handle_send_cmd` gets to `system` -/
def Env.starts (env : Env) : Bool := env.pipe && env.fork

/-- nothing is sent, or the server executes the command: every byte of it is one of the 1024 that
`send_command` stored, and nothing behind `msgbuf` is touched -/
def Obeyed (aes : Cipher) (cfg : Config) (c : Crypt) (hdr serverip header buf : List UInt8)
    (s : Server) (command : CStr) : Prop :=
  ∃ sent, sendCommandIn aes c serverip header buf command = some sent ∧
    ∀ datagram, sent.datagram = some datagram → command.length ≤ 1024 ∧ ∀ env, ∃ s',
      handlePacket aes cfg env s (udpFrame hdr datagram) = some s' ∧
      systems s'.log = systems s.log ++ (if env.starts then [command.bytes] else [])

/-! ## what is sent -/

theorem encLen32_toNat (len : UInt32) : (encLen32 len).toNat = encLen len.toNat % 2 ^ 32 :=
  UInt32.toNat_ofNat'

theorem encLen32_blocks (len : UInt32) : ∃ q, (encLen32 len).toNat = 64 * q := by
  obtain ⟨q, hq⟩ := encLen_blocks len.toNat
  exact ⟨(q + 1) % 2 ^ 26, by rw [encLen32_toNat]; omega⟩

theorem toInt_of_lt {w : UInt32} (h : w.toNat < 2 ^ 31) : toInt w = w.toNat := if_pos h

/-- as long as the sum is an `int`, this is `encryptMessage` -/
theorem encryptMessage32_eq (aes : Cipher) (c : Crypt) (body : List UInt8) {len : UInt32}
    (h : encLen len.toNat < 2 ^ 31) :
    encryptMessage32 aes c body len = encryptMessage aes c body len.toNat := by
  have hn : (toInt (encLen32 len)).toNat = encLen len.toNat := by
    have hm : (encLen32 len).toNat = encLen len.toNat := by
      rw [encLen32_toNat]
      exact Nat.mod_eq_of_lt (by omega)
    rw [toInt_of_lt (by omega), hm, Int.toNat_natCast]
  unfold encryptMessage32 encryptMessage sealMessage
  rw [hn]
  rfl

section
variable (aes : Cipher) (c : Crypt) (serverip header buf : List UInt8) (command : CStr)

/-- `msg->len` -/
def sentLen (command : CStr) : UInt32 := encLen32 (UInt32.ofNat (commandLen command))

/-- nothing is encrypted, and `sendto` fails -/
theorem sendCommandIn_refused (h : 2 ^ 31 ≤ (sentLen command).toNat) :
    ∃ sent, sendCommandIn aes c serverip header buf command = some sent ∧ sent.datagram = none := by
  have hn : (toInt (sentLen command)).toNat = 0 := by
    have := (sentLen command).toNat_lt
    unfold toInt
    split <;> omega
  refine ⟨⟨getTxIv c, none⟩, ?_, rfl⟩
  show within _ _ (64 * (((toInt (sentLen command)).toNat + 63) / 64) : Nat) (within _ _
    (16 * (((toInt (sentLen command)).toNat + 15) / 16) : Nat) (ite _ _ _)) = _
  rw [hn, within_of_le _ (by decide), within_of_le _ (by decide), if_pos]
  · rfl
  · show msgSize + (sentLen command).toNat > maxDatagram
    unfold msgSize maxDatagram
    omega

/-- the message is longer than `msgbuf` -/
theorem sendCommandIn_overrun (h : msgbufSize < (sentLen command).toNat)
    (hlt : (sentLen command).toNat < 2 ^ 31) :
    sendCommandIn aes c serverip header buf command = none := by
  show within _ _ (64 * (((toInt (sentLen command)).toNat + 63) / 64) : Nat) _ = _
  rw [toInt_of_lt hlt, Int.toNat_natCast]
  exact if_neg (by omega)

theorem sendCommandIn_sent (h : (sentLen command).toNat ≤ msgbufSize) :
    ∃ sent, sendCommandIn aes c serverip header buf command = some sent ∧
      sent.datagram = some (commandHeader header serverip (sentLen command) ++
        (encryptMessage32 aes c (commandBody buf command)
          (UInt32.ofNat (commandLen command))).body.take (sentLen command).toNat) := by
  obtain ⟨q, hq⟩ := encLen32_blocks (UInt32.ofNat (commandLen command))
  have hq : (sentLen command).toNat = 64 * q := hq
  unfold msgbufSize at h
  refine ⟨⟨getTxIv c, _⟩, ?_, rfl⟩
  show within msgbufSize _ (64 * (((toInt (sentLen command)).toNat + 63) / 64) : Nat)
    (within msgbufSize _ (16 * (((toInt (sentLen command)).toNat + 15) / 16) : Nat)
      (ite (msgSize + (sentLen command).toNat > maxDatagram) _
        (within msgbufSize 0 (sentLen command).toNat _))) = _
  rw [toInt_of_lt (by omega), Int.toNat_natCast]
  unfold msgbufSize msgSize maxDatagram
  rw [within_of_le _ (by omega), within_of_le _ (by omega), if_neg (by omega),
    within_of_le _ (by omega)]
  rfl

end

/-! ## the frame -/

theorem commandHeader_eq {header serverip : List UInt8} (hh : header.length = msgSize)
    (hs : serverip.length = 4) (len : UInt32) : commandHeader header serverip len
      = slice header 0 4 ++ (put32 true len ++ (put32 true 10 ++ (slice header 12 4 ++ serverip))) := by
  unfold msgSize at hh
  have h1 : poke header 4 (put32 true len)
      = (slice header 0 4 ++ put32 true len) ++ (slice header 8 4 ++ header.drop 12) := by
    rw [← drop_slice header 8 4, List.append_assoc]
    rfl
  have h2 : poke (poke header 4 (put32 true len)) 8 (put32 true 10)
      = (slice header 0 4 ++ (put32 true len ++ (put32 true 10 ++ slice header 12 4)))
        ++ (header.drop 16 ++ []) := by
    rw [poke_of_split h1 (by rw [List.length_append, slice_length _ _ _ (by omega)]; rfl)
      (by rw [slice_length _ _ _ (by omega)]; rfl)]
    rw [drop_slice header 12 4]
    simp only [List.append_assoc, List.append_nil]
  unfold commandHeader
  rw [poke_of_split h2 ?_ (by rw [hs, List.length_drop, hh])]
  · simp only [List.append_assoc, List.append_nil]
  · simp only [List.length_append, put32_length, slice_length header _ 4 (show 0 + 4 ≤ _ by omega),
      slice_length header _ 4 (show 12 + 4 ≤ _ by omega)]

section
variable {hdr header serverip body : List UInt8} {len : UInt32}

theorem udpFrame_header (hu : UdpHeader hdr) (d : List UInt8) {off n : Nat} (h : off + n ≤ 42) :
    slice (udpFrame hdr d).bytes off n = slice hdr off n :=
  slice_append_left _ _ _ _ (by rw [hu.length]; exact h)

theorem udpFrame_data (hu : UdpHeader hdr) (d : List UInt8) (k n : Nat) :
    slice (udpFrame hdr d).bytes (42 + k) n = slice d k n := by
  refine (slice_append_right _ _ _ _ (by rw [hu.length]; omega)).trans ?_
  rw [hu.length, Nat.add_sub_cancel_left]

/-- the fields of the frame that carries a command -/
structure CommandFrame (cfg : Config) (f : Frame) (len : UInt32) (body : List UInt8) : Prop where
  accepts : Accepts cfg f
  msgLen : f.msgLen = len
  msgType : f.msgType = 10
  sid : f.field 56 2 / 2 ^ 12 = cfg.instanceId
  data : f.data = body
  size : toInt f.len = packetSize + body.length

theorem commandFrame {cfg : Config} {c : Crypt} {buf : List UInt8} {s : Server}
    (he : Established cfg c header buf s) (hu : UdpHeader hdr) (hs : serverip.length = 4)
    (hlen : len.toNat = body.length) (hb : body.length ≤ msgbufSize) :
    CommandFrame cfg (udpFrame hdr (commandHeader header serverip len ++ body)) len body := by
  have hh := he.headerSize
  rw [commandHeader_eq hh hs]
  unfold msgSize at hh
  unfold msgbufSize at hb
  have h4 : (slice header 0 4).length = 4 := slice_length _ _ _ (by omega)
  have h12 : (slice header 12 4).length = 4 := slice_length _ _ _ (by omega)
  simp only [List.append_assoc]
  generalize hd : slice header 0 4 ++ (put32 true len ++ (put32 true 10 ++ (slice header 12 4 ++
    (serverip ++ body)))) = d
  have hdl : d.length = msgSize + body.length := by
    rw [← hd]
    simp only [List.length_append, put32_length, h4, h12, hs, msgSize]
    omega
  have hfl : (udpFrame hdr d).len.toNat = packetSize + body.length := by
    show (UInt32.ofNat (hdr.length + d.length)).toNat = _
    rw [UInt32.toNat_ofNat', hu.length, hdl]
    unfold msgSize packetSize
    omega
  have hmsgLen : (udpFrame hdr d).msgLen = len := by
    unfold Frame.msgLen
    rw [udpFrame_data hu d 4 4, slice_of_split hd.symm h4 (put32_length true len), get32_put32]
  have hmsgType : (udpFrame hdr d).msgType = 10 := by
    unfold Frame.msgType
    rw [udpFrame_data hu d 8 4, slice_of_split (a := slice header 0 4 ++ put32 true len)
      (by rw [← hd, List.append_assoc]) (by rw [List.length_append, h4]; rfl) (put32_length true 10),
      get32_put32]
  -- node and session stand in one word of the header
  have hword : ∀ k, k + 2 ≤ 4 → slice (udpFrame hdr d).bytes (54 + k) 2 = slice header (12 + k) 2 := by
    intro k hk
    have hd' : d = (slice header 0 4 ++ (put32 true len ++ put32 true 10)) ++ (slice header 12 4 ++
        (serverip ++ body)) := by
      rw [← hd]
      simp only [List.append_assoc]
    have hl : (slice header 0 4 ++ (put32 true len ++ put32 true 10)).length = 12 := by
      simp only [List.length_append, h4, put32_length]
    rw [show 54 + k = 42 + (12 + k) by omega, udpFrame_data hu d, hd',
      slice_append_right _ _ _ _ (by omega), hl, Nat.add_sub_cancel_left,
      slice_append_left _ _ _ _ (by omega), slice_slice _ hk]
  have hdata : (udpFrame hdr d).data = body := by
    have hd' : hdr ++ d = (hdr ++ (slice header 0 4 ++ (put32 true len ++ (put32 true 10 ++
        (slice header 12 4 ++ serverip))))) ++ body := by
      rw [← hd]
      simp only [List.append_assoc]
    show (hdr ++ d).drop packetSize = body
    rw [hd']
    refine List.drop_left' ?_
    simp only [List.length_append, h4, h12, hs, hu.length, put32_length]
    rfl
  refine ⟨⟨by omega, ?_, ?_, ?_, ?_, ?_, ?_, ?_⟩, hmsgLen, hmsgType, ?_, hdata, ?_⟩
  · unfold Frame.field
    rw [udpFrame_header hu d (by decide), hu.type]
  · rw [udpFrame_header hu d (by decide), hu.dhost]
  · unfold Frame.field
    rw [udpFrame_header hu d (by decide), hu.proto]
  · unfold Frame.field
    rw [udpFrame_header hu d (by decide), hu.port]
  · unfold Frame.field
    rw [udpFrame_data hu d 0 4, slice_of_split (List.nil_append _ ▸ hd.symm) List.length_nil h4, he.magic]
  · unfold Frame.total
    rw [hmsgLen, hlen, hfl]
    dsimp only
    split
    · exact Nat.le_refl _
    · exact Nat.mod_le _ _
  · unfold Frame.field
    rw [hword 0 (by decide)]
    exact he.nid
  · unfold Frame.field
    rw [hword 2 (by decide)]
    exact he.sid
  · rw [toInt_of_lt (by unfold packetSize at hfl; omega), hfl]
    rfl

end

/-! ## what is executed -/

theorem systems_append (a b : List Event) : systems (a ++ b) = systems a ++ systems b :=
  List.filterMap_append

theorem Replies.systems {l : List Event} (h : Replies l) : systems l = [] := by
  refine List.filterMap_eq_nil_iff.mpr fun e he => ?_
  have hr := h e he
  cases e with
  | system cmd => cases hr
  | _ => rfl

/-- the command that a decrypted message holds is started before the replies -/
theorem handleSendCmd_started (aes : Cipher) (cfg : Config) (env : Env) (s : Server) (f : Frame)
    {d : Decrypted} (hd : decryptMessage aes s.crypt f.msgLen f.data = d) (hret : cmdSize < d.ret)
    (htype : d.body.getD encSize 0 = 0) :
    (handleSendCmd aes cfg env s f).nstate = s.state ∧ ∃ l, Replies l ∧
      Adds s (handleSendCmd aes cfg env s f).server
        ((if env.starts then [.system (cmdOf d)] else []) ++ l) := by
  have ht : cmdType cfg.big (d.body.getD encSize 0) = 0 := by
    rw [htype]
    unfold cmdType
    split <;> rfl
  unfold handleSendCmd
  simp only [hd]
  rw [if_neg (by omega), if_pos ht]
  unfold Env.starts
  cases hp : env.pipe with
  | false => exact ⟨rfl, [], replies_nil, rfl, rfl, rfl, by simp⟩
  | true =>
    cases hf : env.fork with
    | false => exact ⟨rfl, [], replies_nil, rfl, rfl, rfl, by simp⟩
    | true =>
      obtain ⟨l, hl, h1, h2⟩ :=
        adds_replyCmd aes env ({ s with crypt := d.crypt }.emit (.system (cmdOf d))) true
      have h0 : Adds s ({ s with crypt := d.crypt }.emit (.system (cmdOf d))) [.system (cmdOf d)] :=
        ⟨rfl, rfl, rfl, rfl⟩
      exact ⟨h2, l, hl, h0.trans h1⟩

/-- the string in the message that is sent -/
def passed (buf : List UInt8) (command : CStr) : List UInt8 :=
  ((slice (commandBody buf command) encSize (commandLen command)).drop cmdSize).takeWhile (· ≠ 0)

section
variable {aes : Cipher} {cfg : Config} {c : Crypt} {hdr serverip header buf : List UInt8} {s : Server}

/-- what is sent is decrypted to the data in the buffer -/
theorem decrypt_command (hi : aes.Inverts) (he : Established cfg c header buf s) {command : CStr}
    (hn : encLen (commandLen command) ≤ msgbufSize) :
    ∃ body, body.length = encLen (commandLen command) ∧
      (encryptMessage32 aes c (commandBody buf command) (UInt32.ofNat (commandLen command))).body.take
        (sentLen command).toNat = body ∧
      (decryptMessage aes s.crypt (sentLen command) body).ret = commandLen command ∧
      slice (decryptMessage aes s.crypt (sentLen command) body).body encSize (commandLen command)
        = slice (commandBody buf command) encSize (commandLen command) := by
  have hb := encLen_bounds (commandLen command)
  unfold msgbufSize encSize at *
  have hmod : (UInt32.ofNat (commandLen command)).toNat = commandLen command := by
    rw [UInt32.toNat_ofNat']
    omega
  have hlen : (sentLen command).toNat = encLen (commandLen command) := by
    show (encLen32 _).toNat = _
    rw [encLen32_toNat, hmod]
    omega
  generalize hB : commandBody buf command = B
  have hBl : B.length = msgbufSize := by
    rw [← hB]
    exact commandBody_length he.bufSize command
  have htl : (B.take (encLen (commandLen command))).length = encLen (commandLen command) := by
    rw [List.length_take, hBl]
    exact Nat.min_eq_left hn
  let m : Message := ⟨B.take (encLen (commandLen command)), commandLen command, by omega, by omega⟩
  obtain ⟨-, -, hret, hdata⟩ := m.accepted hi he.ahead.key (he.ahead.deliver (by decide) he.iv)
  have hml : (encryptMessage aes c m.buf m.len).len = sentLen command := by
    rw [← UInt32.ofNat_toNat (x := sentLen command), hlen]
    rfl
  rw [hml] at hret hdata
  refine ⟨(encryptMessage aes c m.buf m.len).body, encrypt_length htl, ?_, hret, hdata.trans ?_⟩
  · rw [encryptMessage32_eq aes c B (by rw [hmod]; omega), hmod, hlen]
    conv_lhs => rw [← List.take_append_drop (encLen (commandLen command)) B]
    rw [encrypt_append htl, List.take_left' (encrypt_length htl)]
  · show slice (B.take _) 25 _ = _
    conv_rhs => rw [← List.take_append_drop (encLen (commandLen command)) B]
    rw [slice_append_left _ _ _ _ (by omega)]

/-- the type of a command is `EAD_CMD_NORMAL` -/
theorem commandBody_type (hbuf : buf.length = msgbufSize) (command : CStr) :
    (slice (commandBody buf command) encSize (commandLen command)).getD 0 0 = 0 := by
  have hl : (buf.take encSize).length = encSize := by
    rw [List.length_take, hbuf]
    decide
  have hs : slice (commandBody buf command) encSize (commandLen command)
      = ((0 :: 0 :: 10 :: strncpy command 1024) ++ buf.drop 1052).take (commandLen command) := by
    unfold slice commandBody poke
    rw [List.drop_left' hl, List.length_cons, List.length_cons, List.length_cons, strncpy_length]
    rfl
  rw [hs]
  unfold commandLen
  rfl

/-- a command whose message fits into `msgbuf` comes out as the buffer has it -/
theorem system_command (hi : aes.Inverts) (he : Established cfg c header buf s) (hu : UdpHeader hdr)
    (hs : serverip.length = 4) {command : CStr} (hn : encLen (commandLen command) ≤ msgbufSize) :
    ∃ sent datagram, sendCommandIn aes c serverip header buf command = some sent ∧
      sent.datagram = some datagram ∧ toInt (udpFrame hdr datagram).msgType = typeSendCmd ∧ ∀ env, ∃ s',
      handlePacket aes cfg env s (udpFrame hdr datagram) = some s' ∧
      systems s'.log = systems s.log ++ (if env.starts then [passed buf command] else []) := by
  obtain ⟨body, hbl, hbody, hret, hdata⟩ := decrypt_command hi he hn
  have hb := encLen_bounds (commandLen command)
  have hc : commandLen command = command.length + 4 := by
    unfold commandLen cmdSize
    omega
  have hlen : (sentLen command).toNat = body.length := by
    have hmod : (UInt32.ofNat (commandLen command)).toNat = commandLen command := by
      rw [UInt32.toNat_ofNat']
      unfold msgbufSize at hn
      omega
    show (encLen32 _).toNat = _
    rw [encLen32_toNat, hmod, hbl]
    unfold msgbufSize at hn
    omega
  obtain ⟨sent, h1, h2⟩ := sendCommandIn_sent aes c serverip header buf command
    (by rw [hlen, hbl]; exact hn)
  rw [hbody] at h2
  refine ⟨sent, _, h1, h2, ?_⟩
  have hf := commandFrame he hu hs hlen (by rw [hbl]; exact hn)
  generalize udpFrame hdr _ = f at hf ⊢
  have htype : toInt f.msgType = typeSendCmd := by rw [hf.msgType]; rfl
  refine ⟨htype, fun env => ?_⟩
  have hr : Reaches cfg s f 28 := by
    refine ⟨hf.accepts, ?_, fun h => h.2 hf.sid, by rw [htype]; rfl, ?_⟩
    · rw [htype]
      exact fun h => h.2 he.state
    · rw [hf.size, hbl]
      unfold encSize at hb
      omega
  rw [← hf.msgLen, ← hf.data] at hret hdata
  -- the message is decrypted with the key and the counters of the session
  have hret : (decryptMessage aes (s.start typeSendCmd).crypt f.msgLen f.data).ret
      = commandLen command := hret
  have hdata : slice (decryptMessage aes (s.start typeSendCmd).crypt f.msgLen f.data).body encSize
      (commandLen command) = slice (commandBody buf command) encSize (commandLen command) := hdata
  obtain ⟨hnst, l, hl, ha⟩ := handleSendCmd_started aes cfg env (s.start typeSendCmd) f rfl
    (by
      rw [hret]
      unfold cmdSize
      omega)
    (by
      have hhead : ∀ m : List UInt8, m.getD encSize 0 = (slice m encSize (commandLen command)).getD 0 0 := by
        intro m
        unfold slice
        rw [List.getD_eq_getElem?_getD, List.getD_eq_getElem?_getD,
          List.getElem?_take_of_lt (by omega), List.getElem?_drop, Nat.add_zero]
      rw [hhead, hdata]
      exact commandBody_type he.bufSize command)
  have hcmd : cmdOf (decryptMessage aes (s.start typeSendCmd).crypt f.msgLen f.data) = passed buf command :=
    cmdOf_made (m := ⟨.client command, 0, slice (commandBody buf command) encSize (commandLen command), 0, []⟩)
      (by
        rw [hret, slice_length _ _ _ (by rw [commandBody_length he.bufSize]; omega)])
      (by
        rw [slice_length _ _ _ (by rw [commandBody_length he.bufSize]; omega)]
        exact hdata)
  rw [hcmd] at ha
  have hp : handlePacket aes cfg env s f = some (finish cfg env typeSendCmd
      (handleSendCmd aes cfg env (s.start typeSendCmd) f)) := by
    rw [(@handlePacketIn_of_reaches aes cfg env s f 28 hr).2, htype]
    rfl
  obtain ⟨s', l', hl', h', hfin⟩ := finish_eq cfg env typeSendCmd
    (handleSendCmd aes cfg env (s.start typeSendCmd) f)
  have hst : s'.state = (handleSendCmd aes cfg env (s.start typeSendCmd) f).nstate := by
    rw [h'.state, ha.state, hnst]
  rw [hfin, setState_same hst] at hp
  refine ⟨s', hp, ?_⟩
  have hlog := ((adds_start s typeSendCmd).trans (ha.trans h')).log
  rw [hlog, systems_append, systems_append, systems_append, systems_append, hl.systems, hl'.systems,
    List.append_nil, List.append_nil]
  refine congrArg (systems s.log ++ ·) ?_
  split
  · rfl
  · rfl

/-- a command that leaves room for its NUL -/
theorem passed_short (hbuf : buf.length = msgbufSize) {command : CStr} (h : command.length < 1024) :
    passed buf command = command.bytes := by
  unfold passed
  rw [command_data hbuf h]
  exact takeWhile_command command

/-- the first byte behind the copy is part of the message -/
theorem passed_full (hbuf : buf.length = msgbufSize) {command : CStr} (h : command.length = 1024) :
    passed buf command = command.bytes ++ [buf.getD 1052 0].takeWhile (· ≠ 0) := by
  have h' : command.bytes.length = 1024 := h
  have hl : (buf.take encSize).length = encSize := by
    rw [List.length_take, hbuf]
    decide
  have hcopy : strncpy command 1024 = command.bytes := by
    unfold strncpy
    rw [h, List.take_of_length_le (Nat.le_of_eq h')]
    exact List.append_nil _
  have hrest : (buf.drop 1052).take 1 = [buf.getD 1052 0] := by
    have hlt : 1052 < buf.length := by rw [hbuf]; decide
    rw [List.drop_eq_getElem_cons hlt, List.getD_eq_getElem _ _ hlt]
    rfl
  have hs : (slice (commandBody buf command) encSize (commandLen command)).drop cmdSize
      = command.bytes ++ [buf.getD 1052 0] := by
    unfold slice commandBody poke commandLen cmdSize
    rw [List.drop_left' hl, hcopy, h, List.length_cons, List.length_cons, List.length_cons, h',
      List.drop_take]
    show (command.bytes ++ buf.drop 1052).take (1024 + 1) = _
    rw [← h', List.take_length_add_append, hrest]
  unfold passed
  rw [hs, List.takeWhile_append_of_pos]
  intro b hb
  exact decide_eq_true fun e => command.nul_free (e ▸ hb)

end

/-! ## when the command is executed -/

/-- the NUL behind the command is in the message -/
def Terminated (buf : List UInt8) (command : CStr) : Prop :=
  command.length < 1024 ∨ command.length = 1024 ∧ buf.getD 1052 0 = 0

theorem sentLen_toNat (command : CStr) :
    (sentLen command).toNat = (command.length + 92) / 64 * 64 % 2 ^ 32 := by
  unfold sentLen commandLen cmdSize
  rw [encLen32_toNat, UInt32.toNat_ofNat']
  unfold encLen padFor encSize encPad
  omega

section
variable {aes : Cipher} {cfg : Config} {c : Crypt} {hdr serverip header buf : List UInt8} {s : Server}

/-- of a command that fills the copy, the string in the message ends with it -/
theorem Obeyed.terminated (hi : aes.Inverts) (he : Established cfg c header buf s)
    (hu : UdpHeader hdr) (hs : serverip.length = 4) {command : CStr} (h : command.length ≤ 1024)
    (ho : Obeyed aes cfg c hdr serverip header buf s command) : Terminated buf command := by
  rcases Nat.lt_or_eq_of_le h with hlt | h
  · exact .inl hlt
  have hn : encLen (commandLen command) ≤ msgbufSize := by
    have hb := encLen_bounds (commandLen command)
    unfold commandLen cmdSize encSize msgbufSize at *
    omega
  obtain ⟨sent, datagram, h1, h2, -, h3⟩ := system_command hi he hu hs hn
  obtain ⟨sent', h1', h4⟩ := ho
  obtain rfl := Option.some.inj (h1.symm.trans h1')
  obtain ⟨s₁, hp, hl⟩ := h3 envOk
  obtain ⟨s₂, hp', hl'⟩ := (h4 datagram h2).2 envOk
  obtain rfl := Option.some.inj (hp.symm.trans hp')
  have hcmd : passed buf command = command.bytes :=
    List.singleton_inj.mp (List.append_cancel_left (hl.symm.trans hl'))
  rw [passed_full he.bufSize h] at hcmd
  refine .inr ⟨h, by_contra fun hne => ?_⟩
  have hnil := List.append_right_eq_self.mp hcmd
  rw [List.takeWhile_cons_of_pos (by exact decide_eq_true hne)] at hnil
  cases hnil

theorem Terminated.obeyed (hi : aes.Inverts) (he : Established cfg c header buf s)
    (hu : UdpHeader hdr) (hs : serverip.length = 4) {command : CStr} (h : Terminated buf command) :
    Obeyed aes cfg c hdr serverip header buf s command := by
  have hle : command.length ≤ 1024 := h.elim Nat.le_of_lt fun h => Nat.le_of_eq h.1
  have hn : encLen (commandLen command) ≤ msgbufSize := by
    have hb := encLen_bounds (commandLen command)
    unfold commandLen cmdSize encSize msgbufSize at *
    omega
  have hpass : passed buf command = command.bytes := by
    rcases h with h | ⟨h, h0⟩
    · exact passed_short he.bufSize h
    · rw [passed_full he.bufSize h, h0]
      exact List.append_nil _
  obtain ⟨sent, datagram, h1, h2, -, h3⟩ := system_command hi he hu hs hn
  refine ⟨sent, h1, fun d hd => ⟨hle, ?_⟩⟩
  obtain rfl := Option.some.inj (h2.symm.trans hd)
  rw [hpass] at h3
  exact h3

end

/-- **The server executes the command as it was typed** exactly if its NUL is in the message, or if
the command is so long that nothing is sent. -/
theorem obeyed_iff (aes : Cipher) (hi : aes.Inverts) (cfg : Config) (c : Crypt)
    (hdr serverip header buf : List UInt8) (s : Server) (he : Established cfg c header buf s)
    (hu : UdpHeader hdr) (hs : serverip.length = 4) (command : CStr) :
    Obeyed aes cfg c hdr serverip header buf s command ↔
      Terminated buf command ∨ 2 ^ 31 ≤ (command.length + 92) / 64 * 64 % 2 ^ 32 := by
  rw [← sentLen_toNat]
  constructor
  · intro ho
    by_cases hbig : 2 ^ 31 ≤ (sentLen command).toNat
    · exact .inr hbig
    refine .inl (ho.terminated hi he hu hs ?_)
    obtain ⟨sent, h1, h2⟩ := ho
    by_cases hfit : (sentLen command).toNat ≤ msgbufSize
    · obtain ⟨sent', h1', h3⟩ := sendCommandIn_sent aes c serverip header buf command hfit
      obtain rfl := Option.some.inj (h1.symm.trans h1')
      exact (h2 _ h3).1
    · rw [sendCommandIn_overrun aes c serverip header buf command (by omega) (by omega)] at h1
      cases h1
  · rintro (h | h)
    · exact h.obeyed hi he hu hs
    · obtain ⟨sent, h1, h2⟩ := sendCommandIn_refused aes c serverip header buf command h
      refine ⟨sent, h1, fun d hd => ?_⟩
      rw [h2] at hd
      cases hd

/-- the node 1, and a buffer with `b` behind the place of the copy -/
def leftHeader : List UInt8 := put32 true 3671771902 ++ (List.replicate 8 0 ++ ([0, 1, 0, 0] ++
  List.replicate 4 0))

def leftBuf : List UInt8 := List.replicate 1052 0 ++ (98 :: List.replicate 427 0)

def broadcastHeader : List UInt8 := List.replicate 6 0xff ++ (List.replicate 6 0 ++ ([8, 0] ++
  (List.replicate 9 0 ++ ([17] ++ (List.replicate 12 0 ++ ([218, 218] ++ List.replicate 4 0))))))

theorem broadcastHeader_ok : UdpHeader broadcastHeader :=
  ⟨by decide, by decide, by decide, by decide, by decide⟩

def loggedIn : Server := { Server.init with state := typeSendCmd }

theorem leftBuf_established :
    Established ⟨1, 0, [], true, true⟩ ⟨[], 0, 0, 0, 0⟩ leftHeader leftBuf loggedIn where
  headerSize := by decide
  bufSize := by
    unfold leftBuf
    rw [List.length_append, List.length_cons, List.length_replicate, List.length_replicate]
    rfl
  magic := by decide
  nid := .inr (by decide)
  sid := by decide
  state := rfl
  ahead := ⟨rfl, Nat.le_refl _, Nat.le_refl _⟩
  iv := by decide

/-- `n` times the letter a -/
def letters (n : Nat) : CStr :=
  ⟨List.replicate n 97, fun h => absurd (List.eq_of_mem_replicate h) (by decide)⟩

theorem letters_length (n : Nat) : (letters n).length = n := List.length_replicate

/-- the command `id` -/
theorem obeyed_iff_id : Obeyed aesFirst ⟨1, 0, [], true, true⟩ ⟨[], 0, 0, 0, 0⟩ broadcastHeader
    [1, 1, 1, 1] leftHeader leftBuf loggedIn ⟨[105, 100], by decide⟩ :=
  (obeyed_iff aesFirst (tableCipher_inverts _ _) ⟨1, 0, [], true, true⟩ ⟨[], 0, 0, 0, 0⟩
    broadcastHeader [1, 1, 1, 1] leftHeader leftBuf loggedIn leftBuf_established broadcastHeader_ok
    rfl ⟨[105, 100], by decide⟩).mpr (.inl (.inl (by decide)))

/-- the byte that was left in the buffer is executed with a command of 1024 letters; a message of 1444
letters is longer than the buffer -/
theorem command_left : Established ⟨1, 0, [], true, true⟩ ⟨[], 0, 0, 0, 0⟩ leftHeader leftBuf loggedIn ∧
    ¬ Obeyed aesFirst ⟨1, 0, [], true, true⟩ ⟨[], 0, 0, 0, 0⟩ broadcastHeader [1, 1, 1, 1] leftHeader
      leftBuf loggedIn (letters 1024) ∧
    sendCommandIn aesFirst ⟨[], 0, 0, 0, 0⟩ [1, 1, 1, 1] leftHeader leftBuf (letters 1444) = none := by
  refine ⟨leftBuf_established, fun ho => ?_, ?_⟩
  · have ht := ho.terminated (tableCipher_inverts _ _) leftBuf_established broadcastHeader_ok rfl
      (Nat.le_of_eq (letters_length 1024))
    rcases ht with h | ⟨-, h⟩
    · exact absurd h (by rw [letters_length]; decide)
    · have h98 : leftBuf.getD 1052 0 = 98 := by
        unfold leftBuf
        rw [List.getD_append_right _ _ _ _ (Nat.le_of_eq List.length_replicate),
          List.length_replicate]
        rfl
      rw [h98] at h
      exact absurd h (by decide)
  · refine sendCommandIn_overrun _ _ _ _ _ _ ?_ ?_ <;> rw [sentLen_toNat, letters_length] <;> decide

end Ead
