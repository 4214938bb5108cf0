import Firmware.Ead.Gate
import Mathlib.Logic.Relation

/-!
# ead: a session

The server and a client with one session key, and a network that does what it likes with what
they encrypt: it drops, reorders, replays and reflects the bodies, under any header.

* `Made`           a body that one of the two encrypted, and what it stands for;
* `Step`           the client encrypts a command, or the server is handed a frame; a body that the
                   server accepts is one that was made;
* `Sends`          what the server adds to its log, and what it encrypts on the way;
* `executes_made`  every command that is executed is one of these bodies, with an IV in the window.
-/

set_option linter.unusedVariables false

namespace Ead
open Img Word

/-! ## the client -/

/-- `msgbuf`, less the header -/
def msgbufSize : Nat := 1480

def strncpy (s : CStr) (n : Nat) : List UInt8 := s.bytes.take n ++ List.replicate (n - s.length) 0

/-- the message of `send_command`, in a buffer that holds whatever was read into it before -/
def commandBody (buf : List UInt8) (command : CStr) : List UInt8 :=
  poke buf encSize (0 :: 0 :: 10 :: strncpy command 1024)

def commandLen (command : CStr) : Nat := cmdSize + command.length + 1

def sendCommand (aes : Cipher) (c : Crypt) (buf : List UInt8) (command : CStr) : Encrypted :=
  encryptMessage aes c (commandBody buf command) (commandLen command)

/-! ## the session -/

inductive Origin where
  | client (command : CStr)
  | server

/-- a body under the session key: `data` was encrypted with `iv` -/
structure Made where
  origin : Origin
  iv : UInt32
  data : List UInt8
  len : UInt32
  body : List UInt8

/-- the string that is executed when the data is taken for a command -/
def Made.command (m : Made) : List UInt8 := (m.data.drop cmdSize).takeWhile (· ≠ 0)

def madeOf : Event → Option Made
  | .encrypted iv data len body => some ⟨.server, iv, data, len, body⟩
  | _ => none

structure World where
  server : Server
  client : Crypt
  made : List Made

def newEvents (s s' : Server) : List Event := s'.log.drop s.log.length

def World.send (aes : Cipher) (w : World) (buf : List UInt8) (command : CStr) : World :=
  let e := sendCommand aes w.client buf command
  { w with
    client := e.crypt
    made := w.made ++ [⟨.client command, e.crypt.txIv,
      slice (commandBody buf command) encSize (commandLen command), e.len, e.body.take e.len.toNat⟩] }

def World.serve (w : World) (s' : Server) : World :=
  { w with server := s', made := w.made ++ (newEvents w.server s').filterMap madeOf }

inductive Step (aes : Cipher) (cfg : Config) : World → World → Prop where
  | send (w : World) (buf : List UInt8) (command : CStr) (hbuf : buf.length = msgbufSize)
      (hroom : encLen (commandLen command) ≤ msgbufSize) : Step aes cfg w (w.send aes buf command)
  /-- the client decrypts whatever comes -/
  | receive (w : World) (len : UInt32) (body : List UInt8) :
      Step aes cfg w { w with client := (decryptMessage aes w.client len body).crypt }
  /-- any frame; AES and SHA-1 are ideal, and the session goes on -/
  | deliver (w : World) (env : Env) (f : Frame) (s' : Server)
      (h : handlePacket aes cfg env w.server f = some s')
      (ideal : toInt f.msgType = typeSendCmd →
        0 < (decryptMessage aes w.server.crypt f.msgLen f.data).ret →
        ∃ m ∈ w.made, m.len = f.msgLen ∧ m.body = f.data.take f.msgLen.toNat)
      (session : s'.state = typeSendCmd) : Step aes cfg w (w.serve s')

/-- an authenticated session that begins: both parties have set the key -/
structure Start (skey : List UInt8) (w : World) : Prop where
  state : w.server.state = typeSendCmd
  server : ∃ big c, w.server.crypt = setKey big skey c
  client : ∃ big c, w.client = setKey big skey c
  pktbuf : w.server.pktbuf.length = pktbufSize
  made : w.made = []

/-- `system` is called in a step -/
def Executes (w w' : World) (cmd : List UInt8) : Prop := .system cmd ∈ newEvents w.server w'.server

/-! ## the bodies -/

/-- what the data of a body can be -/
def Made.Data (m : Made) : Prop :=
  match m.origin with
  | .client command => ∃ buf, buf.length = msgbufSize ∧
      m.data = slice (commandBody buf command) encSize (commandLen command)
  | .server => m.data = [1] ∨ ∃ output, m.data = 0 :: output

structure Made.Ok (aes : Cipher) (key : List UInt8) (m : Made) : Prop where
  made : ∃ c buf, c.key = key ∧ buf.length = encLen m.data.length ∧ m.iv = c.txIv + c.ofs ∧
    m.body = (encryptMessage aes c buf m.data.length).body ∧
    slice buf encSize m.data.length = m.data
  short : m.data.length < 2 ^ 16
  len : m.len = UInt32.ofNat (encLen m.data.length)
  data : m.Data

theorem encLen_toNat {len : Nat} (h : len < 2 ^ 16) :
    (UInt32.ofNat (encLen len)).toNat = encLen len := by
  have hb := encLen_bounds len
  simp only [encSize] at hb
  rw [UInt32.toNat_ofNat', Nat.mod_eq_of_lt (by omega)]

theorem encrypt_room (aes : Cipher) (c : Crypt) {buf : List UInt8} {len : Nat}
    (h : encLen len ≤ buf.length) : (encryptMessage aes c buf len).body.length = buf.length := by
  have ht : (buf.take (encLen len)).length = encLen len := by
    rw [List.length_take]
    omega
  conv_lhs => rw [← List.take_append_drop (encLen len) buf]
  rw [encrypt_append ht, List.length_append, encrypt_length ht, List.length_drop]
  omega

theorem Made.ok_of_encrypt (aes : Cipher) (c : Crypt) {buf : List UInt8} {len : Nat} (origin : Origin)
    {data : List UInt8} (hroom : encLen len ≤ buf.length) (hlen : len < 2 ^ 16)
    (hdata : slice buf encSize len = data)
    (hd : Made.Data ⟨origin, c.txIv + c.ofs, data, UInt32.ofNat (encLen len),
      (encryptMessage aes c buf len).body.take (UInt32.ofNat (encLen len)).toNat⟩) :
    Made.Ok aes c.key ⟨origin, c.txIv + c.ofs, data, UInt32.ofNat (encLen len),
      (encryptMessage aes c buf len).body.take (UInt32.ofNat (encLen len)).toNat⟩ := by
  have hb := encLen_bounds len
  have hl : data.length = len := by
    rw [← hdata]
    exact slice_length _ _ _ (by omega)
  have ht : (buf.take (encLen len)).length = encLen len := by
    rw [List.length_take]
    omega
  refine ⟨⟨c, buf.take (encLen len), rfl, hl.symm ▸ ht, rfl, ?_, ?_⟩, hl.symm ▸ hlen, by rw [hl], hd⟩
  · have he : (encryptMessage aes c (buf.take (encLen len) ++ buf.drop (encLen len)) len).body = _ :=
      encrypt_append ht _
    rw [List.take_append_drop] at he
    show List.take _ _ = (encryptMessage aes c (buf.take (encLen len)) data.length).body
    rw [hl, he, encLen_toNat hlen, List.take_left' (encrypt_length ht)]
  · show slice (buf.take (encLen len)) encSize data.length = data
    rw [← hdata, slice_length _ _ _ (by omega)]
    conv_rhs => rw [← List.take_append_drop (encLen len) buf]
    rw [slice_append_left _ _ _ _ (by omega)]

/-- a body that was made and is accepted: its IV is in the window, its data comes out -/
theorem decrypt_made {aes : Cipher} (hi : aes.Inverts) {c : Crypt} {m : Made} (hm : m.Ok aes c.key)
    {body : List UInt8} (hb : m.body = body.take m.len.toNat)
    (hret : 0 < (decryptMessage aes c m.len body).ret) :
    c.rxIv < m.iv ∧ m.iv ≤ c.rxIv + maxIvIncr ∧
    (decryptMessage aes c m.len body).ret = m.data.length ∧
    slice (decryptMessage aes c m.len body).body encSize m.data.length = m.data := by
  obtain ⟨c', buf, hk, hbuf, hiv, hbody, hdata⟩ := hm.made
  have hn : toInt m.len = encLen m.data.length := by rw [hm.len, toInt_encLen hm.short]
  have hsplit : body = (encryptMessage aes c' buf m.data.length).body ++ body.drop m.len.toNat := by
    rw [← hbody, hb, List.take_append_drop]
  have hwin : c.rxIv < m.iv ∧ m.iv ≤ c.rxIv + maxIvIncr := by
    obtain ⟨_, _, h0⟩ | ⟨iv, hiv', _, h1, h2, _⟩ := decrypt_cases aes c m.len body
    · omega
    · rw [hn, hsplit, ← hk, ivOf_encrypt hi c' hbuf, ← hiv] at hiv'
      rw [← hiv']
      exact ⟨h1, h2⟩
  have hd := decryptMessage_encryptMessage hi hk hbuf hm.short (body.drop m.len.toNat)
    (checkRxIv_eq_some.mpr ⟨hiv ▸ hwin.1, hiv ▸ hwin.2, rfl⟩)
  rw [← hsplit, ← hm.len] at hd
  refine ⟨hwin.1, hwin.2, by rw [hd], ?_⟩
  rw [hd, data_sealTail _ hbuf, hdata]

/-- the string that the server executes is the one the data stands for -/
theorem cmdOf_made {d : Decrypted} {m : Made} (hr : d.ret = m.data.length)
    (hb : slice d.body encSize m.data.length = m.data) : cmdOf d = m.command := by
  unfold cmdOf Made.command
  have hn : (d.ret - cmdSize).toNat = m.data.length - cmdSize := by
    rw [hr]
    omega
  rw [hn]
  conv_rhs => rw [← hb]
  unfold slice
  rw [List.drop_take, List.drop_drop]

/-! ## what the server makes -/

/-- the server adds `l` to its log; what it makes there is under the key it has -/
structure Sends (aes : Cipher) (s s' : Server) (l : List Event) : Prop where
  log : s'.log = s.log ++ l
  key : s'.crypt.key = s.crypt.key
  room : s'.pktbuf.length = s.pktbuf.length
  made : ∀ m ∈ l.filterMap madeOf, m.Ok aes s.crypt.key
  tx : s.crypt.txIv.toNat + 4 * (l.filterMap madeOf).length < 2 ^ 32 →
    s.crypt.txIv.toNat ≤ s'.crypt.txIv.toNat ∧
    s'.crypt.txIv.toNat ≤ s.crypt.txIv.toNat + 4 * (l.filterMap madeOf).length ∧
    ∀ m ∈ l.filterMap madeOf, m.iv.toNat ≤ s'.crypt.txIv.toNat

section
variable {aes : Cipher} {cfg : Config} {env : Env} {s s' s'' : Server} {f : Frame}

/-- nothing is made -/
theorem Sends.of_quiet {l : List Event} (hlog : s'.log = s.log ++ l) (hk : s'.crypt.key = s.crypt.key)
    (htx : s'.crypt.txIv = s.crypt.txIv) (hroom : s'.pktbuf.length = s.pktbuf.length)
    (hl : l.filterMap madeOf = []) : Sends aes s s' l := by
  refine ⟨hlog, hk, hroom, ?_, fun _ => ?_⟩
  · rw [hl]
    exact nofun
  · rw [hl, htx]
    exact ⟨Nat.le_refl _, Nat.le_add_right _ _, nofun⟩

theorem Sends.trans {l l' : List Event} (h : Sends aes s s' l) (h' : Sends aes s' s'' l') :
    Sends aes s s'' (l ++ l') := by
  refine ⟨by rw [h'.log, h.log, List.append_assoc], h'.key.trans h.key, h'.room.trans h.room, ?_, ?_⟩
  · intro m hm
    rw [List.filterMap_append] at hm
    rcases List.mem_append.mp hm with hm | hm
    · exact h.made m hm
    · exact h.key ▸ h'.made m hm
  · rw [List.filterMap_append, List.length_append]
    intro hlt
    obtain ⟨h1, h2, h3⟩ := h.tx (by omega)
    obtain ⟨h4, h5, h6⟩ := h'.tx (by omega)
    refine ⟨by omega, by omega, fun m hm => ?_⟩
    rcases List.mem_append.mp hm with hm | hm
    · exact Nat.le_trans (h3 m hm) h4
    · exact h6 m hm

theorem sends_sendPacketClone (aes : Cipher) (s : Server) (type : Int) : ∃ l, Replies l ∧
    Sends aes s (sendPacketClone s type) l :=
  ⟨_, replies_sent _ _ _, .of_quiet rfl rfl rfl rfl rfl⟩

/-- the data of a reply in `pktbuf` -/
theorem slice_reply {buf : List UInt8} (h : buf.length = pktbufSize) (done : UInt8) {data : List UInt8}
    (hd : data.length ≤ 1024) :
    (poke buf encSize (done :: data)).length = pktbufSize ∧
    slice (poke buf encSize (done :: data)) encSize (1 + data.length) = done :: data := by
  have hroom : encSize + (done :: data).length ≤ buf.length := by
    rw [List.length_cons, h]
    simp only [encSize, pktbufSize]
    omega
  refine ⟨(poke_length _ _ _ hroom).trans h, ?_⟩
  rw [Nat.add_comm]
  exact slice_poke_self buf encSize (done :: data) hroom

theorem sends_encryptReply (aes : Cipher) {done : UInt8} {data : List UInt8} (h : s.pktbuf.length = pktbufSize)
    (hd : data.length ≤ 1024) (hdata : done :: data = [1] ∨ done = 0) :
    ∃ l, Replies l ∧ Sends aes s (encryptReply aes s done data) l := by
  obtain ⟨hlen, hslice⟩ := slice_reply h done hd
  have hroom : encLen (1 + data.length) ≤ (poke s.pktbuf encSize (done :: data)).length := by
    have hb := encLen_bounds (1 + data.length)
    rw [hlen]
    simp only [encSize, pktbufSize] at hb ⊢
    omega
  have hok := Made.ok_of_encrypt aes s.crypt .server hroom (by omega) hslice (by
    obtain hdata | rfl := hdata
    · exact Or.inl hdata
    · exact Or.inr ⟨data, rfl⟩)
  refine ⟨[.encrypted (s.crypt.txIv + s.crypt.ofs) (done :: data) _ _], by simp [Replies, Event.isReply],
    rfl, rfl, ?_, ?_, ?_⟩
  · exact (encrypt_room aes s.crypt hroom).trans (hlen.trans h.symm)
  · intro m hm
    rw [List.mem_singleton.mp hm]
    exact hok
  · intro hlt
    have ho := ofs_bounds s.crypt
    have ht : s.crypt.txIv.toNat + 4 < 2 ^ 32 := hlt
    have hn := txIv_toNat ht
    have he : (encryptReply aes s done data).crypt.txIv = s.crypt.txIv + s.crypt.ofs := rfl
    rw [he, hn]
    refine ⟨by omega, ?_, fun m hm => ?_⟩
    · show _ ≤ _ + 4 * 1
      omega
    · rw [List.mem_singleton.mp hm]
      exact Nat.le_of_eq hn

theorem sends_sendData (aes : Cipher) (reads : List (List UInt8)) (h : s.pktbuf.length = pktbufSize) :
    ∃ l, Replies l ∧ Sends aes s (reads.foldl (sendData aes) s) l := by
  induction reads generalizing s with
  | nil => exact ⟨[], replies_nil, .of_quiet (by simp) rfl rfl rfl rfl⟩
  | cons bytes reads ih =>
    obtain ⟨l, hl, h1⟩ := sends_encryptReply aes h
      (show (bytes.take 1024).length ≤ 1024 by rw [List.length_take]; omega) (Or.inr rfl)
    obtain ⟨l', hl', h2⟩ := sends_sendPacketClone aes
      (encryptReply aes s 0 (bytes.take 1024)) (typeSendCmd + 1)
    have h12 := h1.trans h2
    obtain ⟨l'', hl'', h3⟩ := ih (h12.room.trans h)
    exact ⟨_, (hl.append hl').append hl'', h12.trans h3⟩

theorem sends_replyCmd (aes : Cipher) (env : Env) (stream : Bool) (h : s.pktbuf.length = pktbufSize) :
    ∃ l, Replies l ∧ Sends aes s (replyCmd aes env s stream).server l := by
  unfold replyCmd
  obtain ⟨l, hl, h1⟩ := sends_sendData aes env.reads h
  split
  · split
    · exact ⟨l, hl, h1⟩
    · obtain ⟨l', hl', h2⟩ := sends_encryptReply aes (h1.room.trans h) (Nat.zero_le _)
        (Or.inl rfl)
      exact ⟨_, hl.append hl', h1.trans h2⟩
  · exact sends_encryptReply aes h (Nat.zero_le _) (Or.inl rfl)

/-- `handle_send_cmd` executes what it decrypted, if anything -/
theorem sends_handleSendCmd (aes : Cipher) (cfg : Config) (env : Env) (f : Frame)
    (h : s.pktbuf.length = pktbufSize) :
    ∃ l, Sends aes s (handleSendCmd aes cfg env s f).server l ∧
      ∀ cmd, .system cmd ∈ l → (cmdSize : Int) < (decryptMessage aes s.crypt f.msgLen f.data).ret ∧
        cmd = cmdOf (decryptMessage aes s.crypt f.msgLen f.data) := by
  have hk := decrypt_key aes s.crypt f.msgLen f.data
  have htx : (decryptMessage aes s.crypt f.msgLen f.data).crypt.txIv = s.crypt.txIv := by
    obtain ⟨e, _⟩ | ⟨iv, _, _, _, _, e⟩ := decrypt_cases aes s.crypt f.msgLen f.data <;> rw [e]
  unfold handleSendCmd
  simp only
  generalize decryptMessage aes s.crypt f.msgLen f.data = d at hk htx ⊢
  have hnone : Sends aes s { s with crypt := d.crypt } [] := .of_quiet (by simp) hk htx rfl rfl
  have hstart : ∀ stream, (cmdSize : Int) < d.ret →
      ∃ l, Sends aes s (replyCmd aes env ({ s with crypt := d.crypt }.emit (.system (cmdOf d))) stream).server l ∧
      ∀ cmd, .system cmd ∈ l → (cmdSize : Int) < d.ret ∧ cmd = cmdOf d := by
    intro stream hd
    have h0 : Sends aes s ({ s with crypt := d.crypt }.emit (.system (cmdOf d))) [.system (cmdOf d)] :=
      .of_quiet rfl hk htx rfl rfl
    obtain ⟨l, hl, h1⟩ := sends_replyCmd aes env stream (h0.room.trans h)
    refine ⟨_, h0.trans h1, fun cmd hc => ⟨hd, ?_⟩⟩
    rcases List.mem_append.mp hc with hc | hc
    · exact Event.system.inj (List.mem_singleton.mp hc)
    · exact absurd rfl (hl.ne hc rfl)
  split
  · exact ⟨[], hnone, nofun⟩
  next hret =>
  split
  · split
    · exact ⟨[], hnone, nofun⟩
    · exact hstart true (by omega)
  split
  · split
    · exact ⟨[], hnone, nofun⟩
    · exact hstart false (by omega)
  · exact ⟨[], hnone, nofun⟩

theorem sends_start (s : Server) (type : Int) : Sends aes s (s.start type) [.handled type s.ts] :=
  .of_quiet rfl rfl rfl rfl rfl

/-- a handler that stays in its state -/
theorem Sends.finish (cfg : Config) (env : Env) (type : Int) {o : Outcome} {l : List Event}
    (h : Sends aes s o.server l)
    (hn : o.nstate = o.server.state) :
    ∃ l', Replies l' ∧ Sends aes s (finish cfg env type o) (l ++ l') := by
  unfold Ead.finish
  cases o.reply with
  | false => exact ⟨[], replies_nil, (setState_same hn.symm).symm ▸ h.trans (.of_quiet (by simp) rfl rfl rfl rfl)⟩
  | true =>
    obtain ⟨l', hl', h'⟩ := sends_sendPacketClone aes o.server (type + 1)
    have hst : (sendPacketClone o.server (type + 1)).state = o.nstate := hn.symm
    exact ⟨l', hl', (setState_same hst).symm ▸ h.trans h'⟩

theorem sends_ping (aes : Cipher) (cfg : Config) (env : Env) (h : s.pktbuf.length = pktbufSize) :
    ∃ l, Sends aes s (finish cfg env typePing (handlePing cfg (s.start typePing))) l ∧
      ∀ cmd, .system cmd ∉ l := by
  have hp : Sends aes s (handlePing cfg (s.start typePing)).server [.handled typePing s.ts] := by
    refine .of_quiet rfl rfl rfl (poke_length _ _ _ ?_) rfl
    have ht : (cfg.devName.take 1024).length ≤ 1024 := by
      rw [List.length_take]
      omega
    show _ ≤ s.pktbuf.length
    rw [h, List.length_append, List.length_append]
    simp only [List.length_cons, List.length_nil, pktbufSize]
    omega
  obtain ⟨l', hl', h'⟩ := hp.finish cfg env typePing rfl
  refine ⟨_, h', fun cmd hc => ?_⟩
  rcases List.mem_append.mp hc with hc | hc
  · cases List.mem_singleton.mp hc
  · exact absurd rfl (hl'.ne hc rfl)

/-- a user name ends the session -/
theorem setUsername_leaves (hs : s.state = typeSendCmd) :
    (finish cfg env typeSetUsername (handleSetUsername cfg env (s.start typeSetUsername) f)).state
      ≠ typeSendCmd := by
  have h1 : (setState cfg env (s.start typeSetUsername) typeSetUsername).state = typeSetUsername := by
    unfold setState
    rw [show (s.start typeSetUsername).state = typeSendCmd from hs, if_neg (by decide),
      if_pos (by decide), if_pos (by decide)]
  have h2 : ∀ x : Server, x.state = typeSetUsername → (setState cfg env x typeGetPrime).state ≠ typeSendCmd := by
    intro x hx
    unfold setState
    rw [hx, if_neg (by decide), if_neg (by decide), if_pos rfl]
    split
    · rw [hx]
      decide
    split
    · show typeSetUsername ≠ typeSendCmd
      decide
    · show typeGetPrime ≠ typeSendCmd
      decide
  exact h2 _ h1

theorem sends_deliver (h : s.pktbuf.length = pktbufSize) (hs : s.state = typeSendCmd)
    (hp : handlePacket aes cfg env s f = some s') (hs' : s'.state = typeSendCmd) :
    ∃ l, Sends aes s s' l ∧ ∀ cmd, .system cmd ∈ l → toInt f.msgType = typeSendCmd ∧
      (cmdSize : Int) < (decryptMessage aes s.crypt f.msgLen f.data).ret ∧
      cmd = cmdOf (decryptMessage aes s.crypt f.msgLen f.data) := by
  have hsame : Sends aes s s [] := .of_quiet (by simp) rfl rfl rfl rfl
  obtain rfl | hp := handlePacket_cases hp
  · exact ⟨[], hsame, nofun⟩
  obtain rfl | ⟨type, o, htype, hstate, hmin, ho, rfl⟩ := parseMessage_cases hp
  · exact ⟨[], hsame, nofun⟩
  -- from `GET_PRIME` on the type is the state
  have hge : typeGetPrime ≤ type → type = typeSendCmd := fun hge => (hstate hge).symm.trans hs
  obtain ⟨rfl, rfl⟩ | ⟨rfl, rfl⟩ | ⟨rfl, -⟩ | ⟨rfl, -⟩ | ⟨rfl, -⟩ | ⟨rfl, rfl⟩ := handle_cases hmin ho
  · obtain ⟨l, h1, h2⟩ := sends_ping aes cfg env h
    exact ⟨l, h1, fun cmd hc => absurd hc (h2 cmd)⟩
  · exact absurd hs' (setUsername_leaves hs)
  · exact absurd (hge (by decide)) (by decide)
  · exact absurd (hge (by decide)) (by decide)
  · exact absurd (hge (by decide)) (by decide)
  obtain ⟨l, h3, h4⟩ := sends_handleSendCmd aes cfg env f (s := s.start typeSendCmd) h
  obtain ⟨l', hl', h5⟩ := ((sends_start s typeSendCmd).trans h3).finish cfg env typeSendCmd
    (by
      obtain ⟨hn, l, _, ha | ⟨cmd, ha⟩⟩ := adds_handleSendCmd aes cfg env (s.start typeSendCmd) f
      · exact hn.trans ha.state.symm
      · exact hn.trans ha.state.symm)
  refine ⟨_, h5, fun cmd hc => ⟨htype.symm, ?_⟩⟩
  rcases List.mem_append.mp hc with hc | hc
  · rcases List.mem_append.mp hc with hc | hc
    · cases List.mem_singleton.mp hc
    · exact h4 cmd hc
  · exact absurd rfl (hl'.ne hc rfl)

end

/-! ## what the client makes -/

theorem strncpy_length (s : CStr) (n : Nat) : (strncpy s n).length = n := by
  unfold strncpy CStr.length
  rw [List.length_append, List.length_take, List.length_replicate]
  omega

theorem commandBody_length {buf : List UInt8} (h : buf.length = msgbufSize) (command : CStr) :
    (commandBody buf command).length = msgbufSize := by
  refine (poke_length _ _ _ ?_).trans h
  simp only [List.length_cons, strncpy_length, encSize, h, msgbufSize]
  omega

/-- the data of `send_command`, for a command that `strncpy` does not cut -/
theorem command_data {buf : List UInt8} (h : buf.length = msgbufSize) {command : CStr}
    (hc : command.length < 1024) : slice (commandBody buf command) encSize (commandLen command)
      = 0 :: 0 :: 10 :: (command.bytes ++ [0]) := by
  have hfull := slice_poke_self buf encSize (0 :: 0 :: 10 :: strncpy command 1024) (by
    simp only [List.length_cons, strncpy_length, encSize, h, msgbufSize]
    omega)
  have htake : slice (commandBody buf command) encSize (commandLen command)
      = (0 :: 0 :: 10 :: strncpy command 1024).take (commandLen command) := by
    rw [← hfull]
    unfold slice commandBody
    rw [List.take_take, Nat.min_eq_left]
    simp only [List.length_cons, strncpy_length, commandLen, cmdSize]
    omega
  rw [htake]
  unfold commandLen cmdSize strncpy CStr.length at *
  rw [show 3 + command.bytes.length + 1 = command.bytes.length + 1 + 1 + 1 + 1 by omega]
  simp only [List.take_succ_cons]
  rw [List.take_of_length_le (l := command.bytes) (by omega), List.take_append, List.take_of_length_le
    (by omega), show command.bytes.length + 1 - command.bytes.length = 1 by omega,
    List.take_replicate, show min 1 (1024 - command.bytes.length) = 1 by omega]
  rfl

theorem takeWhile_command (command : CStr) :
    ((0 :: 0 :: 10 :: (command.bytes ++ [0]) : List UInt8).drop cmdSize).takeWhile (· ≠ 0)
      = command.bytes := by
  show (command.bytes ++ [0]).takeWhile (· ≠ 0) = command.bytes
  rw [List.takeWhile_append_of_pos]
  · simp
  · intro b hb
    simp only [ne_eq, decide_not, Bool.not_eq_eq_eq_not, Bool.not_true, decide_eq_false_iff_not]
    exact fun e => command.nul_free (e ▸ hb)

/-! ## runs -/

structure World.Inv (aes : Cipher) (key : List UInt8) (w : World) : Prop where
  state : w.server.state = typeSendCmd
  serverKey : w.server.crypt.key = key
  clientKey : w.client.key = key
  pktbuf : w.server.pktbuf.length = pktbufSize
  made : ∀ m ∈ w.made, m.Ok aes key
  tx : w.made.length < 2 ^ 29 → w.server.crypt.txIv.toNat < 2 ^ 24 + 4 * w.made.length ∧
    ∀ m ∈ w.made, m.origin = .server → m.iv.toNat ≤ w.server.crypt.txIv.toNat

section
variable {aes : Cipher} {cfg : Config} {w w' : World} {key skey : List UInt8}

theorem Start.inv (aes : Cipher) (h : Start skey w) : w.Inv aes (skey.take 16) := by
  obtain ⟨big, c, hs⟩ := h.server
  obtain ⟨big', c', hc⟩ := h.client
  refine ⟨h.state, by rw [hs]; rfl, by rw [hc]; rfl, h.pktbuf, by rw [h.made]; exact nofun, fun _ => ?_⟩
  rw [h.made, hs]
  exact ⟨Nat.lt_of_lt_of_le (setKey_txIv_lt big skey c) (Nat.le_add_right _ _), nofun⟩

theorem newEvents_eq {s s' : Server} {l : List Event} (h : Sends aes s s' l) : newEvents s s' = l := by
  unfold newEvents
  rw [h.log, List.drop_left]

theorem World.Inv.send (h : w.Inv aes key) {buf : List UInt8} {command : CStr}
    (hbuf : buf.length = msgbufSize) (hroom : encLen (commandLen command) ≤ msgbufSize) :
    (w.send aes buf command).Inv aes key := by
  have hlen := commandBody_length hbuf command
  have hb := encLen_bounds (commandLen command)
  have hshort : commandLen command < 2 ^ 16 := by
    simp only [msgbufSize] at hroom
    omega
  have hok := Made.ok_of_encrypt aes w.client (.client command) (hlen.symm ▸ hroom) hshort rfl
    ⟨buf, hbuf, rfl⟩
  refine ⟨h.state, h.serverKey, h.clientKey, h.pktbuf, fun m hm => ?_, fun hlt => ?_⟩
  · rcases List.mem_append.mp hm with hm | hm
    · exact h.made m hm
    · rw [List.mem_singleton.mp hm]
      exact h.clientKey ▸ hok
  · have hl : (w.send aes buf command).made.length = w.made.length + 1 := List.length_append
    rw [hl] at hlt ⊢
    obtain ⟨h1, h2⟩ := h.tx (by omega)
    refine ⟨Nat.lt_of_lt_of_le h1 (by omega), fun m hm ho => ?_⟩
    rcases List.mem_append.mp hm with hm | hm
    · exact h2 m hm ho
    · rw [List.mem_singleton.mp hm] at ho
      cases ho

theorem World.Inv.serve (h : w.Inv aes key) {s' : Server} {l : List Event}
    (hs : Sends aes w.server s' l) (hstate : s'.state = typeSendCmd) : (w.serve s').Inv aes key := by
  have hl : (w.serve s').made = w.made ++ l.filterMap madeOf := by
    rw [← newEvents_eq hs]
    rfl
  refine ⟨hstate, hs.key.trans h.serverKey, h.clientKey, hs.room.trans h.pktbuf, ?_, ?_⟩
  · rw [hl]
    intro m hm
    rcases List.mem_append.mp hm with hm | hm
    · exact h.made m hm
    · exact h.serverKey ▸ hs.made m hm
  · rw [hl, List.length_append]
    intro hlt
    obtain ⟨h1, h2⟩ := h.tx (by omega)
    obtain ⟨h3, h4, h5⟩ := hs.tx (by omega)
    refine ⟨Nat.lt_of_le_of_lt h4 (by omega), fun m hm ho => ?_⟩
    rcases List.mem_append.mp hm with hm | hm
    · exact Nat.le_trans (h2 m hm ho) h3
    · exact h5 m hm

theorem World.Inv.step (h : w.Inv aes key) (hs : Step aes cfg w w') : w'.Inv aes key := by
  cases hs with
  | send buf command hbuf hroom => exact h.send hbuf hroom
  | receive len body =>
    exact ⟨h.state, h.serverKey, (decrypt_key aes w.client len body).trans h.clientKey, h.pktbuf,
      h.made, h.tx⟩
  | deliver env f s' hp ideal session =>
    obtain ⟨l, hl, _⟩ := sends_deliver h.pktbuf h.state hp session
    exact h.serve hl session

theorem World.Inv.run (h : w.Inv aes key) (hr : Relation.ReflTransGen (Step aes cfg) w w') :
    w'.Inv aes key := by
  induction hr with
  | refl => exact h
  | tail _ hs ih => exact ih.step hs

/-- the frame that makes the server execute a command is one of the bodies -/
theorem executes_made (hi : aes.Inverts) (h : w.Inv aes key) (hs : Step aes cfg w w') {cmd : List UInt8}
    (hx : Executes w w' cmd) : ∃ m ∈ w.made, m.command = cmd ∧ w.server.crypt.rxIv < m.iv ∧
      m.iv ≤ w.server.crypt.rxIv + maxIvIncr ∧ cmdSize < m.data.length := by
  have hnone : ∀ c, ¬ Event.system c ∈ newEvents w.server w.server := by
    intro c hc
    unfold newEvents at hc
    rw [List.drop_length] at hc
    cases hc
  cases hs with
  | send buf command hbuf hroom => exact absurd hx (hnone cmd)
  | receive len body => exact absurd hx (hnone cmd)
  | deliver env f s' hp ideal session =>
    obtain ⟨l, hl, hsys⟩ := sends_deliver h.pktbuf h.state hp session
    have hx : Event.system cmd ∈ newEvents w.server s' := hx
    rw [newEvents_eq hl] at hx
    obtain ⟨htype, hret, rfl⟩ := hsys cmd hx
    have hpos : 0 < (decryptMessage aes w.server.crypt f.msgLen f.data).ret := by
      simp only [cmdSize] at hret
      omega
    obtain ⟨m, hm, hlen, hbody⟩ := ideal htype hpos
    rw [← hlen] at hpos hret hbody ⊢
    obtain ⟨h1, h2, h3, h4⟩ := decrypt_made hi (h.serverKey.symm ▸ h.made m hm) hbody hpos
    refine ⟨m, hm, (cmdOf_made h3 h4).symm, h1, h2, ?_⟩
    rw [h3] at hret
    exact_mod_cast hret

end

end Ead
