import Firmware.Ead.Daemon
import Firmware.Ead.Command
import Firmware.Ead.Aes

/-!
# ead: a login that succeeds

The frames of a client that follows the protocol, and what the daemon makes of them, whatever it did before.

* `Request`            a frame that comes to the handler of its type;
* `packet_request`     what such a frame does;
* `Room`               `pktbuf` does not get shorter;
* `Exchange`           the four frames of a login, with what the client computes;
* `Exchange.succeeds`  the daemon takes them all, and has the key of the client;
* `root_exchange`      such a login, of the user `root`;
* `login_obeyed`       the command that the client sends next is executed.
-/

set_option linter.unusedVariables false

namespace Ead
open Img Word Srp

/-- a frame that comes to the handler of its type -/
structure Request (cfg : Config) (type : Int) (f : Frame) : Prop where
  msgType : toInt f.msgType = type
  accepts : Accepts cfg f
  instanceId : f.field 56 2 / 2 ^ 12 = cfg.instanceId
  min : ∃ k : Nat, minLen type = some k ∧ (packetSize : Int) + k ≤ toInt f.len

section
variable {aes : Cipher} {m : Router} {os : Os} {d : Daemon} {f : Frame} {type : Int} {o : Outcome}

theorem packet_request (hq : Request m.cfg type f) (hs : typeGetPrime ≤ type → d.server.state = type)
    (ho : handle aes m.cfg (d.env m os f) (d.server.start type) f type = some o)
    (hprep : type = typeSetUsername → d.prepared m os f ≠ none) :
    d.packet m os f aes = some (d.next m os f (finish m.cfg (d.env m os f) type o) type) := by
  obtain ⟨rfl, hacc, hid, k, hk, hmin⟩ := hq
  have hr : Reaches m.cfg d.server f k :=
    ⟨hacc, fun h => h.2 (hs h.1), fun h => h.2 hid, hk, by omega⟩
  have hp := (@handlePacketIn_of_reaches aes m.cfg (d.env m os f) d.server f k hr).2
  rw [ho] at hp
  unfold Daemon.packet
  rw [hp, Option.map_some, Option.bind_some]
  rw [handled_finish (by rw [hk]; exact Option.some_ne_none k) ho]
  exact if_neg fun h => hprep h.1 h.2

/-! ## `pktbuf` -/

def Room (s : Server) : Prop := pktbufSize ≤ s.pktbuf.length

theorem length_le_poke {α : Type} (l : List α) (off : Nat) (x : List α) : l.length ≤ (poke l off x).length := by
  unfold poke
  rw [List.length_append, List.length_append, List.length_take, List.length_drop]
  omega

theorem room_poke {l : List UInt8} (h : pktbufSize ≤ l.length) (off : Nat) (x : List UInt8) :
    pktbufSize ≤ (poke l off x).length := Nat.le_trans h (length_le_poke l off x)

theorem room_encryptReply (aes : Cipher) {s : Server} (h : Room s) (done : UInt8) {x : List UInt8}
    (hx : x.length ≤ 1024) : Room (encryptReply aes s done x) := by
  have hb := encLen_bounds (1 + x.length)
  have hp := room_poke h encSize (done :: x)
  have hle : encLen (1 + x.length) ≤ (poke s.pktbuf encSize (done :: x)).length := by
    unfold pktbufSize encSize at *
    omega
  have hl := encrypt_room aes s.crypt hle
  show pktbufSize ≤ (encryptMessage aes s.crypt (poke s.pktbuf encSize (done :: x)) (1 + x.length)).body.length
  rw [hl]
  exact hp

theorem room_sendData (aes : Cipher) (reads : List (List UInt8)) :
    ∀ s : Server, Room s → Room (reads.foldl (sendData aes) s) := by
  induction reads with
  | nil =>
    intro s h
    exact h
  | cons bytes reads ih =>
    intro s h
    have h1 := room_encryptReply aes h 0 (x := bytes.take 1024) (List.length_take_le _ _)
    exact ih _ h1

theorem room_replyCmd (aes : Cipher) (env : Env) {s : Server} (h : Room s) (stream : Bool) :
    Room (replyCmd aes env s stream).server := by
  have h1 := room_sendData aes env.reads s h
  unfold replyCmd
  split
  · split
    · exact h1
    · exact room_encryptReply aes h1 1 (Nat.zero_le _)
  · exact room_encryptReply aes h 1 (Nat.zero_le _)

theorem setState_pktbuf (cfg : Config) (env : Env) (s : Server) (n : Int) :
    (setState cfg env s n).pktbuf = s.pktbuf := by
  unfold setState
  split
  · rfl
  split
  · split
    · rfl
    · rfl
  split
  · split
    · rfl
    split
    · rfl
    · rfl
  split
  · rfl
  split
  · split
    · rfl
    · rfl
  · rfl

theorem room_handle {cfg : Config} {env : Env} {s : Server} (hmin : minLen type ≠ none) (h : Room s)
    (ho : handle aes cfg env s f type = some o) : Room o.server := by
  obtain ⟨-, rfl⟩ | ⟨-, rfl⟩ | ⟨-, ho⟩ | ⟨-, ho⟩ | ⟨-, rfl⟩ | ⟨-, rfl⟩ := handle_cases hmin ho
  · exact room_poke h _ _
  · show pktbufSize ≤ (setState cfg env s typeSetUsername).pktbuf.length
    rw [setState_pktbuf]
    exact h
  · obtain ⟨t, -, rfl⟩ := Option.map_eq_some_iff.mp ho
    exact room_poke (room_poke (room_poke h _ _) _ _) _ _
  · unfold handleSendA at ho
    dsimp only at ho
    split at ho
    · cases ho
      exact h
    split at ho
    · cases ho
    · obtain ⟨b, -, rfl⟩ := Option.map_eq_some_iff.mp ho
      exact room_poke h _ _
  · unfold handleSendAuth
    split
    · exact h
    · exact room_poke h _ _
  · unfold handleSendCmd
    dsimp only
    split
    · exact h
    split
    · split
      · exact h
      · refine room_replyCmd aes env ?_ true
        exact h
    split
    · split
      · exact h
      · refine room_replyCmd aes env ?_ false
        exact h
    · exact h

theorem room_packet {d' : Daemon} (h : Room d.server) (hp : d.packet m os f aes = some d') : Room d'.server := by
  obtain rfl | ⟨o, hmin, -, ho, -, rfl⟩ := packet_cases hp
  · exact h
  · show pktbufSize ≤ (finish m.cfg (d.env m os f) (toInt f.msgType) o).pktbuf.length
    unfold finish
    rw [setState_pktbuf]
    have ho' := room_handle hmin (s := d.server.start (toInt f.msgType)) h ho
    cases o.reply with
    | false => exact ho'
    | true => exact ho'

theorem room_run {frames : List (Os × Frame)} {d' : Daemon} (h : Room d.server)
    (hr : runDaemon aes m d frames = some d') : Room d'.server := by
  induction frames generalizing d with
  | nil => exact Option.some.inj hr ▸ h
  | cons x l ih =>
    obtain ⟨d1, h1, h2⟩ := Option.bind_eq_some_iff.mp hr
    exact ih (room_packet h h1) h2

/-! ## the four frames -/

variable (aes os)

/-- a name that the password file has, in any state, where `prepare_password` comes back -/
theorem packet_setUsername {password : List UInt8} {frames : List (Os × Frame)} (hp : Progress m frames d)
    (hq : Request m.cfg typeSetUsername f) (hpw : (os.search f.username).2 = some password)
    (hw : m.writable = true) (hdig : d.saltbuf ≠ os.dig) : ∃ d',
    d.packet m os f aes = some d' ∧ d'.server.state = typeGetPrime ∧ d'.ts = some (serveropenraw m.host
      ⟨f.username, verifier m.host conf.modulus conf.generator [] f.username password, []⟩ conf) := by
  obtain ⟨hn, hst, -⟩ := handleSetUsername_eq m.cfg (d.env m os f) f (s := d.server.start typeSetUsername)
    hp.inv.reached
  obtain ⟨prep, hprep, htpe⟩ := prepared_found hpw hw hdig
  refine ⟨_, packet_request hq (fun h => absurd h (by decide)) rfl fun _ => by simp [hprep], ?_, ?_⟩
  · obtain ⟨s', h1, -, -, he⟩ := finish_frame m.cfg (d.env m os f) typeSetUsername
      (handleSetUsername m.cfg (d.env m os f) (d.server.start typeSetUsername) f)
    show (finish _ _ _ _).state = _
    rw [he, hn]
    have hsome : (d.env m os f).preparePassword = true := by
      unfold Daemon.env
      rw [hprep, Option.elim_some, htpe]
      rfl
    unfold setState
    rw [h1.trans hst, if_neg (by decide), if_neg (by decide), if_pos rfl, hsome, if_neg (by decide)]
    rfl
  · show d.nextServer m os f typeSetUsername = _
    unfold Daemon.nextServer
    rw [if_pos rfl, hprep, Option.bind_some, htpe]
    rfl

theorem packet_getPrime {t : TServer} (hi : Inv d.server) (hs : d.server.state = typeGetPrime) (ht : d.ts = some t)
    (hq : Request m.cfg typeGetPrime f) : ∃ d', d.packet m os f aes = some d' ∧ d'.server.state = typeSendA ∧
    d'.ts = some (servergenexp m.host os.random t) ∧ d'.server.b = some (servergenexp m.host os.random t).bigB := by
  obtain ⟨k, hk⟩ := hi.reached.ts_of_ge (by rw [hs])
  have hk' : (d.server.start typeGetPrime).ts = some k := hk
  have ho : ∃ o, handleGetPrime (d.env m os f) (d.server.start typeGetPrime) = some o ∧ o.nstate = typeSendA ∧
      o.server.state = typeGetPrime := by
    unfold handleGetPrime
    rw [hk']
    exact ⟨_, rfl, rfl, hs⟩
  obtain ⟨o, ho, hn, hst⟩ := ho
  obtain ⟨s', h1, -, -, he⟩ := finish_frame m.cfg (d.env m os f) typeGetPrime o
  have hset : setState m.cfg (d.env m os f) s' typeSendA =
      { s' with b := (d.env m os f).servergenexp, state := typeSendA } := by
    unfold setState
    rw [h1.trans hst, if_neg (by decide), if_neg (by decide), if_neg (by decide), if_pos rfl]
  refine ⟨_, packet_request hq (fun _ => hs) ho (fun h => absurd h (by decide)), ?_, ?_, ?_⟩
  · show (finish _ _ _ _).state = _
    rw [he, hn, hset]
  · show Option.map _ d.ts = _
    rw [ht]
    rfl
  · show (finish _ _ _ _).b = _
    rw [he, hn, hset]
    show Option.map _ d.ts = _
    rw [ht]
    rfl

/-- the reply to a number is the number of the server -/
theorem packet_sendA {t t' : TServer} {key : List UInt8} {n : Nat} (hroom : Room d.server)
    (hs : d.server.state = typeSendA) (ht : d.ts = some t) (hb : d.server.b = some t.bigB)
    (hB : t.bigB.length ≤ 256) (hq : Request m.cfg typeSendA f) (hn : toInt (f.msgLen - 1) = n) (hn' : n ≤ 256)
    (hkey : servergetkey m.host t f.number = (t', some key)) : ∃ d' data c,
    d.packet m os f aes = some d' ∧ d'.server.state = typeSendAuth ∧ d'.ts = some t' ∧
    d'.server.crypt = setKey m.cfg.big key c ∧
    .sent (typeSendA + 1) (UInt32.ofNat (1 + t.bigB.length)) data ∈ newEvents d.server d'.server ∧
    data.drop 1 = t.bigB := by
  have hmax : ¬toInt (f.msgLen - 1) > maxParamLen + 1 := by
    rw [hn]
    unfold maxParamLen
    omega
  have hlen : (UInt32.ofNat (1 + t.bigB.length)).toNat = 1 + t.bigB.length := by
    rw [UInt32.toNat_ofNat', Nat.mod_eq_of_lt (by omega)]
  obtain ⟨o, ho, hr, hn2, hst, hts, hml, hbuf, hlog⟩ : ∃ o, handleSendA (d.server.start typeSendA) f = some o ∧
      o.reply = true ∧ o.nstate = typeSendAuth ∧ o.server.state = typeSendA ∧ o.server.ts = d.server.ts ∧
      o.server.msgLen = UInt32.ofNat (1 + t.bigB.length) ∧ o.server.pktbuf = poke d.server.pktbuf 1 t.bigB ∧
      o.server.log = d.server.log ++ [.handled typeSendA d.server.ts] := by
    have hb' : (d.server.start typeSendA).b = some t.bigB := hb
    unfold handleSendA
    dsimp only
    rw [if_neg hmax, if_neg (by omega), hb']
    exact ⟨_, rfl, rfl, rfl, hs, rfl, rfl, rfl, rfl⟩
  have hget : (d.env m os f).servergetkey = some key := by
    show Option.bind d.ts _ = _
    rw [ht]
    exact congrArg Prod.snd hkey
  have hfin : finish m.cfg (d.env m os f) typeSendA o = { (sendPacketClone o.server (typeSendA + 1)).emit
      (.gotKey o.server.ts) with crypt := setKey m.cfg.big key o.server.crypt, state := typeSendAuth } := by
    have hst' : (sendPacketClone o.server (typeSendA + 1)).state = typeSendA := hst
    unfold finish
    rw [hr, if_pos rfl, hn2, setState_sendAuth hst', hget]
    rfl
  have hev : newEvents d.server (finish m.cfg (d.env m os f) typeSendA o) = [.handled typeSendA d.server.ts,
      .sent (typeSendA + 1) (UInt32.ofNat (1 + t.bigB.length))
        ((poke d.server.pktbuf 1 t.bigB).take (1 + t.bigB.length)), .gotKey d.server.ts] := by
    apply newEvents_append
    rw [hfin]
    unfold sendPacketClone
    rw [hml, hbuf, hlen]
    show (o.server.log ++ _) ++ _ = _
    rw [hlog, hts, List.append_assoc, List.append_assoc]
    rfl
  refine ⟨_, (poke d.server.pktbuf 1 t.bigB).take (1 + t.bigB.length), o.server.crypt,
    packet_request hq (fun _ => hs) ho (fun h => absurd h (by decide)), ?_, ?_, ?_, ?_, ?_⟩
  · show (finish _ _ _ _).state = _
    rw [hfin]
  · show (if toInt (f.msgLen - 1) > maxParamLen + 1 then d.ts else d.ts.map _) = _
    rw [if_neg hmax, ht]
    exact congrArg (fun r => some r.1) hkey
  · show (finish _ _ _ _).crypt = _
    rw [hfin]
  · show _ ∈ newEvents _ (finish _ _ _ _)
    rw [hev]
    exact List.mem_cons_of_mem _ List.mem_cons_self
  · have h1 : (d.server.pktbuf.take 1).length = 1 := List.length_take_of_le (Nat.le_trans (by decide) hroom)
    unfold poke
    rw [List.drop_take, Nat.add_sub_cancel_left, List.drop_left' h1, List.take_left]

/-- the reply to a digest that is taken is the answer of the server -/
theorem packet_sendAuth {t t' : TServer} (hs : d.server.state = typeSendAuth) (ht : d.ts = some t)
    (hq : Request m.cfg typeSendAuth f) (hv : serververify m.host t (f.data.take 20) = (t', true)) : ∃ d',
    d.packet m os f aes = some d' ∧ d'.server.state = typeSendCmd ∧ d'.server.crypt = d.server.crypt ∧
    (t'.sessionResponse.length = 20 →
      .sent (typeSendAuth + 1) 20 t'.sessionResponse ∈ newEvents d.server d'.server) := by
  have henv : (d.env m os f).serververify = true ∧ (d.env m os f).serverresponse = t'.sessionResponse := by
    unfold Daemon.env
    rw [ht]
    exact ⟨congrArg Prod.snd hv, congrArg (fun r => r.1.sessionResponse) hv⟩
  obtain ⟨o, ho, hr, hn, hst, hcrypt, hml, hbuf, hlog⟩ : ∃ o,
      handleSendAuth (d.env m os f) (d.server.start typeSendAuth) = o ∧ o.reply = true ∧ o.nstate = typeSendCmd ∧
      o.server.state = typeSendAuth ∧ o.server.crypt = d.server.crypt ∧ o.server.msgLen = 20 ∧
      o.server.pktbuf = poke d.server.pktbuf 0 (t'.sessionResponse.take 20) ∧
      o.server.log = d.server.log ++ [.handled typeSendAuth d.server.ts, .verified d.server.ts] := by
    unfold handleSendAuth
    rw [henv.1, henv.2, if_neg (by decide)]
    refine ⟨_, rfl, rfl, rfl, hs, rfl, rfl, rfl, ?_⟩
    exact List.append_assoc d.server.log _ _
  have hfin : finish m.cfg (d.env m os f) typeSendAuth o =
      { sendPacketClone o.server (typeSendAuth + 1) with state := typeSendCmd } := by
    have hst' : (sendPacketClone o.server (typeSendAuth + 1)).state = typeSendAuth := hst
    unfold finish
    rw [hr, if_pos rfl, hn]
    unfold setState
    rw [hst', if_neg (by decide), if_neg (by decide), if_neg (by decide), if_neg (by decide), if_neg (by decide)]
  have ho' : handle aes m.cfg (d.env m os f) (d.server.start typeSendAuth) f typeSendAuth = some o := by
    rw [← ho]
    rfl
  refine ⟨_, packet_request hq (fun _ => hs) ho' (fun h => absurd h (by decide)), ?_, ?_, fun h20 => ?_⟩
  · show (finish _ _ _ _).state = _
    rw [hfin]
  · show (finish _ _ _ _).crypt = _
    rw [hfin]
    exact hcrypt
  · have hev : newEvents d.server (finish m.cfg (d.env m os f) typeSendAuth o) = [.handled typeSendAuth d.server.ts,
        .verified d.server.ts, .sent (typeSendAuth + 1) 20 t'.sessionResponse] := by
      apply newEvents_append
      rw [hfin]
      unfold sendPacketClone
      have hdata : (poke d.server.pktbuf 0 (t'.sessionResponse.take 20)).take 20 = t'.sessionResponse := by
        unfold poke
        rw [List.take_zero, List.nil_append, List.take_of_length_le (Nat.le_of_eq h20), ← h20, List.take_left]
      rw [hml, hbuf]
      show o.server.log ++ [Event.sent _ _ (List.take 20 _)] = _
      rw [hlog, hdata, List.append_assoc]
      rfl
    show _ ∈ newEvents _ (finish _ _ _ _)
    rw [hev]
    simp

end

/-! ## a login -/

/-- the four frames of a client that follows the protocol, with the user name and the random bytes of `p`; both sides
have a key, and the daemon comes out of `prepare_password` -/
structure Exchange (m : Router) (p : Setup) (tc tc' : TClient) (ts : TServer) (ks kc : List UInt8)
    (x1 x2 x3 x4 : Os × Frame) : Prop where
  writable : m.writable = true
  host : p.hs = m.host
  table : p.tce = conf
  salt : p.s = []
  opens : clientopen p.hc p.user p.tce.modulus p.tce.generator p.s = some (some tc)
  serverKey : servergetkey p.hs p.server (clientgenexp p.hc p.ra tc).bigA = (ts, some ks)
  clientKey : clientgetkey p.hc (p.client tc) p.server.bigB = (tc', some kc)
  named : Request m.cfg typeSetUsername x1.2
  name : x1.2.username = p.u
  found : (x1.1.search p.u).2 = some p.password
  asked : Request m.cfg typeGetPrime x2.2
  random : x2.1.random = p.rb
  offered : Request m.cfg typeSendA x3.2
  number : x3.2.number = (clientgenexp p.hc p.ra tc).bigA
  length : toInt (x3.2.msgLen - 1) = ((clientgenexp p.hc p.ra tc).bigA.length : Int)
  proved : Request m.cfg typeSendAuth x4.2
  response : x4.2.data.take 20 = tc'.sessionResponse

section
variable {aes : Cipher} {m : Router} {os : Os} {d d' : Daemon} {f : Frame}

theorem packet_log (hp : d.packet m os f aes = some d') :
    d'.server.log = d.server.log ++ newEvents d.server d'.server := by
  obtain rfl | ⟨o, hmin, -, ho, -, rfl⟩ := packet_cases hp
  · rw [newEvents_append (List.append_nil _).symm, List.append_nil]
  · obtain ⟨l, hl⟩ := handle_log hmin ho
    obtain ⟨s', l', -, ha, he⟩ := finish_eq m.cfg (d.env m os f) (toInt f.msgType) o
    obtain ⟨l'', hl'', -⟩ := setState_log m.cfg (d.env m os f) s' o.nstate
    have hlog : (finish m.cfg (d.env m os f) (toInt f.msgType) o).log = d.server.log ++
        ([.handled (toInt f.msgType) d.server.ts] ++ l ++ l' ++ l'') := by
      rw [he, hl'', ha.log, hl.1]
      simp [Server.start, Server.emit]
    show (finish _ _ _ _).log = _ ++ newEvents _ (finish _ _ _ _)
    rw [newEvents_append hlog]
    exact hlog

theorem runDaemon_cons (hp : d.packet m os f aes = some d') (l : List (Os × Frame)) :
    runDaemon aes m d ((os, f) :: l) = runDaemon aes m d' l := by
  show (d.packet m os f aes).bind _ = _
  rw [hp]
  rfl

end

section
variable (aes : Cipher) {m : Router} {d : Daemon} {p : Setup} {tc tc' : TClient} {ts : TServer} {ks kc : List UInt8}
  {x1 x2 x3 x4 : Os × Frame} {frames : List (Os × Frame)}

theorem natBytes_length_conf {n : Nat} (h : n ≤ Bits.ofBytes conf.modulus) : (natBytes n).length ≤ 256 :=
  Nat.le_trans (natBytes_length_le h) ((preParams_ok 0 (by decide)).2 conf conf_table).2.1

/-- both numbers fit in a message -/
theorem number_lengths (ho : clientopen p.hc p.user p.tce.modulus p.tce.generator p.s = some (some tc))
    (hpw : Short p.password) (htable : p.tce = conf) :
    p.server.bigB.length ≤ 256 ∧ (clientgenexp p.hc p.ra tc).bigA.length ≤ 256 := by
  obtain ⟨hu, hs⟩ := Setup.fits ho
  obtain ⟨hn, hg, h1, -⟩ := Setup.params ho
  obtain ⟨hB, -, hBn, -⟩ := Setup.server_eq hu hs hpw hn hg h1
  obtain ⟨hA, -⟩ := Setup.client_eq hu hs hpw hn hg h1 ho
  have hmod : p.n = Bits.ofBytes conf.modulus := by
    rw [← htable]
    rfl
  rw [hmod] at hBn
  rw [hA, hB]
  refine ⟨natBytes_length_conf hBn, natBytes_length_conf ?_⟩
  rw [← hmod]
  exact Nat.le_of_lt (Nat.mod_lt _ (Nat.lt_trans Nat.one_pos h1))

/-- **The daemon takes the four frames**, whatever it did before: it has the key of the client, and its replies are the
number and the answer that the client expects. -/
theorem Exchange.succeeds (hp : Progress m frames d) (hroom : Room d.server)
    (hx : Exchange m p tc tc' ts ks kc x1 x2 x3 x4) (hdig : d.saltbuf ≠ x1.1.dig) : ∃ d' c data,
    runDaemon aes m d [x1, x2, x3, x4] = some d' ∧ d'.server.state = typeSendCmd ∧
    d'.server.crypt = setKey m.cfg.big ks c ∧ ks = kc ∧
    .sent (typeSendA + 1) (UInt32.ofNat (1 + p.server.bigB.length)) data ∈ newEvents d.server d'.server ∧
    data.drop 1 = p.server.bigB ∧
    (sha1 (p.server.bigB ++ ks) ≠ tc'.sessionResponse → ∃ answer,
      .sent (typeSendAuth + 1) 20 answer ∈ newEvents d.server d'.server ∧ (clientverify p.hc tc' answer).2 = true) := by
  obtain ⟨hw, hhost, htable, hsalt, ho, hks, hkc, hq1, hname, hfound, hq2, hrandom, hq3, hnumber, hlength, hq4, hresp⟩ := hx
  obtain ⟨os1, f1⟩ := x1
  obtain ⟨os2, f2⟩ := x2
  obtain ⟨os3, f3⟩ := x3
  obtain ⟨os4, f4⟩ := x4
  obtain ⟨hu, hs⟩ := Setup.fits ho
  have hpw : Short p.password := search_short hfound
  obtain ⟨hBlen, hAlen⟩ := number_lengths ho hpw htable
  obtain ⟨hksk, hkck, hpr, hacc, hans, hver⟩ := Setup.both hu hs hpw ho (congrArg Prod.snd hks)
    (congrArg Prod.snd hkc) (congrArg Prod.fst hks).symm (congrArg Prod.fst hkc).symm
  -- the name
  rw [← hname] at hfound
  obtain ⟨d1, hd1, hs1, ht1⟩ := packet_setUsername aes os1 hp hq1 hfound hw hdig
  have hp1 := hp.packet hd1
  have hserver1 : d1.ts = some (serveropenraw p.hs p.ent p.tce) := by
    rw [ht1, hname]
    unfold Setup.ent
    rw [hhost, htable, hsalt]
  -- the prime
  obtain ⟨d2, hd2, hs2, ht2, hb2⟩ := packet_getPrime aes os2 hp1.inv hs1 hserver1 hq2
  have hexp : servergenexp m.host os2.random (serveropenraw p.hs p.ent p.tce) = p.server := by
    unfold Setup.server
    rw [← hhost]
    exact congrArg (fun r => servergenexp p.hs r _) hrandom
  rw [hexp] at ht2 hb2
  -- the number
  obtain ⟨d3, data, c, hd3, hs3, ht3, hc3, hsent3, hdata⟩ := packet_sendA aes os3
    (room_packet (room_packet hroom hd1) hd2) hs2 ht2 hb2 hBlen hq3 hlength hAlen (by
      rw [hnumber, ← hhost]
      exact hks)
  -- the digest
  have hverify : serververify m.host ts (f4.data.take 20) =
      ((serververify m.host ts (f4.data.take 20)).1, true) := by
    refine Prod.ext rfl ?_
    rw [hresp, hpr, ← hhost]
    exact hacc
  obtain ⟨d4, hd4, hs4, hc4, hsent4⟩ := packet_sendAuth aes os4 hs3 ht3 hq4 hverify
  have hrun : runDaemon aes m d [(os1, f1), (os2, f2), (os3, f3), (os4, f4)] = some d4 := by
    rw [runDaemon_cons hd1, runDaemon_cons hd2, runDaemon_cons hd3, runDaemon_cons hd4]
    rfl
  have hevents : newEvents d.server d4.server = newEvents d.server d1.server ++ (newEvents d1.server d2.server ++
      (newEvents d2.server d3.server ++ newEvents d3.server d4.server)) := by
    apply newEvents_append
    rw [packet_log hd4, packet_log hd3, packet_log hd2, packet_log hd1]
    simp only [List.append_assoc]
  refine ⟨d4, c, data, hrun, hs4, hc4.trans hc3, hksk.trans hkck.symm, ?_, hdata, fun hne => ?_⟩
  · rw [hevents]
    exact List.mem_append_right _ (List.mem_append_right _ (List.mem_append_left _ hsent3))
  · have hanswer : (serververify m.host ts (f4.data.take 20)).1.sessionResponse = p.answer := by
      rw [hresp, hpr, ← hhost]
      apply hans
      rw [← hksk, ← hpr]
      exact hne
    rw [hanswer] at hsent4
    refine ⟨p.answer, ?_, hver⟩
    rw [hevents]
    exact List.mem_append_right _ (List.mem_append_right _ (List.mem_append_right _ (hsent4 (sha1_length _))))

end

/-! ## the user `root` -/

theorem frameOf_request (type : UInt32) (data : List UInt8) {k : Nat} (hk : minLen (toInt type) = some k)
    (hlen : data.length < 4096) (hmin : k ≤ data.length) :
    Request ⟨1, 0, [], true, true⟩ (toInt type) (frameOf type data) ∧ (frameOf type data).data = data ∧
      (frameOf type data).msgLen.toNat = data.length := by
  have hm : (frameOf type data).msgLen = UInt32.ofNat data.length := by
    show get32 true (put32 true (UInt32.ofNat data.length)) = _
    exact get32_put32 _ _
  have hl : (UInt32.ofNat data.length).toNat = data.length := by
    rw [UInt32.toNat_ofNat', Nat.mod_eq_of_lt (by omega)]
  have hf : (frameOf type data).len.toNat = packetSize + data.length := by
    show (UInt32.ofNat (packetSize + data.length)).toNat = _
    rw [UInt32.toNat_ofNat', Nat.mod_eq_of_lt (by unfold packetSize; omega)]
  have ht : (frameOf type data).msgType = type := by
    show get32 true (put32 true type) = _
    exact get32_put32 _ _
  have hid : (frameOf type data).field 56 2 = 0 := rfl
  refine ⟨⟨by rw [ht], ⟨?_, rfl, rfl, rfl, rfl, rfl, ?_, Or.inl rfl⟩, by rw [hid]; rfl, k, hk, ?_⟩, rfl,
    by rw [hm, hl]⟩
  · rw [hf]
    omega
  · unfold Frame.total
    rw [hm, hl, hf]
    exact Nat.le_refl _
  · rw [toInt_of_lt (by rw [hf]; unfold packetSize; omega), hf]
    omega

def router : Router := ⟨Setup.root.hs, ⟨1, 0, [], true, true⟩, rfl, true⟩

/-- the file has another user first, and the stack is not empty -/
def home : Os where
  passwd := some (chars "rooter:x:1:\nroot:$1$ab$x:0:0:root\n")
  random := Setup.root.rb
  dig := List.replicate 32 170
  dig_length := rfl
  pipe := true
  fork := true
  reads := []
  childPending := false

theorem root_found : (home.search Setup.root.u).2 = some Setup.root.password := by
  decide +kernel

theorem root_exchange {tc tc' : TClient} {ts : TServer} {k : List UInt8}
    (ho : clientopen Setup.root.hc Setup.root.user Setup.root.tce.modulus Setup.root.tce.generator Setup.root.s =
      some (some tc))
    (hks : servergetkey Setup.root.hs Setup.root.server (clientgenexp Setup.root.hc Setup.root.ra tc).bigA =
      (ts, some k))
    (hkc : clientgetkey Setup.root.hc (Setup.root.client tc) Setup.root.server.bigB = (tc', some k)) :
    Exchange router Setup.root tc tc' ts k k (home, frameOf 2 (Setup.root.u ++ List.replicate 28 0))
      (home, frameOf 4 []) (home, frameOf 6 (0 :: (clientgenexp Setup.root.hc Setup.root.ra tc).bigA))
      (home, frameOf 8 tc'.sessionResponse) := by
  obtain ⟨hu, hs⟩ := Setup.fits ho
  have hpw : Short Setup.root.password := by
    unfold Short
    decide
  obtain ⟨-, hAlen⟩ := number_lengths ho hpw root_conf
  obtain ⟨-, -, hpr, -⟩ := Setup.both hu hs hpw ho (congrArg Prod.snd hks)
    (congrArg Prod.snd hkc) (congrArg Prod.fst hks).symm (congrArg Prod.fst hkc).symm
  have hresp : tc'.sessionResponse.length = 20 := by
    rw [hpr]
    exact sha1_length _
  obtain ⟨r1, d1, -⟩ := frameOf_request 2 (Setup.root.u ++ List.replicate 28 0) (k := 32) rfl
    (by decide) (by decide)
  obtain ⟨r2, -, -⟩ := frameOf_request 4 [] (k := 0) rfl (by decide) (by decide)
  obtain ⟨r3, d3, l3⟩ := frameOf_request 6 (0 :: (clientgenexp Setup.root.hc Setup.root.ra tc).bigA) (k := 1) rfl
    (by rw [List.length_cons]; omega) (by rw [List.length_cons]; omega)
  obtain ⟨r4, d4, -⟩ := frameOf_request 8 tc'.sessionResponse (k := 20) rfl (by omega) (by omega)
  rw [List.length_cons] at l3
  have hlen : ((frameOf 6 (0 :: (clientgenexp Setup.root.hc Setup.root.ra tc).bigA)).msgLen - 1).toNat =
      (clientgenexp Setup.root.hc Setup.root.ra tc).bigA.length := by
    rw [UInt32.toNat_sub_of_le _ _ (by
      rw [UInt32.le_iff_toNat_le, l3]
      exact Nat.le_add_left 1 _), l3]
    rfl
  have hint : toInt ((frameOf 6 (0 :: (clientgenexp Setup.root.hc Setup.root.ra tc).bigA)).msgLen - 1) =
      ((clientgenexp Setup.root.hc Setup.root.ra tc).bigA.length : Int) := by
    rw [toInt_of_lt (by omega), hlen]
  exact {
    writable := rfl
    host := rfl
    table := root_conf
    salt := rfl
    opens := ho
    serverKey := hks
    clientKey := hkc
    named := r1
    name := by
      unfold Frame.username
      rw [d1]
      decide
    found := root_found
    asked := r2
    random := rfl
    offered := r3
    number := by
      unfold Frame.number
      rw [hint, d3, Int.toNat_natCast]
      exact List.take_length
    length := hint
    proved := r4
    response := by
      rw [d4, ← hresp]
      exact List.take_length }

/-! ## the command -/

/-- what the buffer of the client has when it makes a command -/
structure Addressed (cfg : Config) (header buf : List UInt8) : Prop where
  headerSize : header.length = msgSize
  bufSize : buf.length = msgbufSize
  magic : Bits.ofBytes (slice header 0 4) = eadMagic
  nid : Bits.ofBytes (slice header 12 2) = 0xffff ∨ Bits.ofBytes (slice header 12 2) = cfg.nid
  sid : Bits.ofBytes (slice header 14 2) / 2 ^ 12 = cfg.instanceId

/-- **A login, and a command.**  Whatever the daemon did before, it takes the four frames of a client that follows the
protocol, answers with the number and the digest that this client expects, and executes the command that the client
encrypts then, as it was typed. -/
theorem login_obeyed (aes : Cipher) (hi : aes.Inverts) (m : Router) (frames : List (Os × Frame)) {d : Daemon}
    (hr : runDaemon aes m Daemon.init frames = some d) {p : Setup} {tc tc' : TClient} {ts : TServer}
    {ks kc : List UInt8} {x1 x2 x3 x4 : Os × Frame} (hx : Exchange m p tc tc' ts ks kc x1 x2 x3 x4)
    (hdig : d.saltbuf ≠ x1.1.dig) (big : Bool) (c : Crypt) {hdr serverip header buf : List UInt8}
    (hu : UdpHeader hdr) (hip : serverip.length = 4) (ha : Addressed m.cfg header buf) {command : CStr}
    (ht : Terminated buf command) : ∃ d' data,
    runDaemon aes m d [x1, x2, x3, x4] = some d' ∧
    .sent (typeSendA + 1) (UInt32.ofNat (1 + p.server.bigB.length)) data ∈ newEvents d.server d'.server ∧
    data.drop 1 = p.server.bigB ∧
    (sha1 (p.server.bigB ++ ks) ≠ tc'.sessionResponse → ∃ answer,
      .sent (typeSendAuth + 1) 20 answer ∈ newEvents d.server d'.server ∧ (clientverify p.hc tc' answer).2 = true) ∧
    Obeyed aes m.cfg (setKey big kc c) hdr serverip header buf d'.server command := by
  have hprog := (progress_init m).run hr
  have hroom : Room d.server := room_run (Nat.le_of_eq (List.length_replicate ..).symm) hr
  obtain ⟨d', c', data, hrun, hs, hcrypt, hk, hsent, hdata, hanswer⟩ := hx.succeeds aes hprog hroom hdig
  refine ⟨d', data, hrun, hsent, hdata, hanswer, ?_⟩
  have hiv := setKey_txIv_lt big kc c
  refine ht.obeyed hi ⟨ha.headerSize, ha.bufSize, ha.magic, ha.nid, ha.sid, hs, ?_, by omega⟩ hu hip
  rw [hcrypt, hk]
  exact setKey_ahead big m.cfg.big kc c c'

/-- the command `id`, encrypted with AES -/
theorem login_obeyed_root : ∃ tc tc' ts x1 x2 x3 x4 d data,
    Exchange router Setup.root tc tc' ts Setup.root.key Setup.root.key x1 x2 x3 x4 ∧
    runDaemon Aes.rijndael router Daemon.init [x1, x2, x3, x4] = some d ∧
    .sent (typeSendA + 1) (UInt32.ofNat (1 + Setup.root.server.bigB.length)) data ∈
      newEvents Daemon.init.server d.server ∧
    data.drop 1 = Setup.root.server.bigB ∧
    (sha1 (Setup.root.server.bigB ++ Setup.root.key) ≠ tc'.sessionResponse → ∃ answer,
      .sent (typeSendAuth + 1) 20 answer ∈ newEvents Daemon.init.server d.server ∧
        (clientverify Setup.root.hc tc' answer).2 = true) ∧
    Obeyed Aes.rijndael router.cfg (setKey false Setup.root.key ⟨[], 0, 0, 0, 0⟩) broadcastHeader [1, 1, 1, 1] leftHeader
      leftBuf d.server ⟨[105, 100], by decide⟩ := by
  obtain ⟨tc, ts, tc', ho, hks, hkc⟩ := Setup.root_keys
  have hx := root_exchange ho hks hkc
  have hi : Aes.rijndael.Inverts := fun _ _ h => Aes.rijndaelDecrypt_rijndaelEncrypt _ h
  obtain ⟨d, data, h⟩ := login_obeyed Aes.rijndael hi router [] rfl hx (by decide) false ⟨[], 0, 0, 0, 0⟩ broadcastHeader_ok
    (show ([1, 1, 1, 1] : List UInt8).length = 4 from rfl)
    ⟨leftBuf_established.headerSize, leftBuf_established.bufSize, leftBuf_established.magic,
      leftBuf_established.nid, leftBuf_established.sid⟩
    (show Terminated leftBuf ⟨[105, 100], by decide⟩ from .inl (by decide))
  exact ⟨tc, tc', ts, _, _, _, _, d, data, hx, h⟩

/-- the same command, the key behind it, and the login that it is from -/
theorem commands_keyed_root : ∃ frames d f d' cmd,
    runDaemon Aes.rijndael router Daemon.init frames = some d ∧ d.packet router home f Aes.rijndael = some d' ∧
    .system cmd ∈ newEvents d.server d'.server ∧ router.writable = true ∧ ∃ l tried a r, Login.Proves l frames tried a r ∧
      d.server.crypt.key = (l.key a.2.number).take 16 ∧ toInt f.msgType = typeSendCmd ∧
      (cmdSize : Int) < (decryptMessage Aes.rijndael d.server.crypt f.msgLen f.data).ret ∧
      cmd = cmdOf (decryptMessage Aes.rijndael d.server.crypt f.msgLen f.data) := by
  obtain ⟨tc, ts, tc', ho, hks, hkc⟩ := Setup.root_keys
  obtain ⟨d, c', data, hrun, hs, hcrypt, -⟩ := (root_exchange ho hks hkc).succeeds Aes.rijndael
    (progress_init router) (Nat.le_of_eq (List.length_replicate ..).symm) (by decide)
  have hiv := setKey_txIv_lt false Setup.root.key ⟨[], 0, 0, 0, 0⟩
  have he : Established router.cfg (setKey false Setup.root.key ⟨[], 0, 0, 0, 0⟩) leftHeader leftBuf d.server :=
    ⟨leftBuf_established.headerSize, leftBuf_established.bufSize, leftBuf_established.magic,
      leftBuf_established.nid, leftBuf_established.sid, hs, by
        rw [hcrypt]
        exact setKey_ahead false router.cfg.big _ _ c', by omega⟩
  have hi : Aes.rijndael.Inverts := fun _ _ h => Aes.rijndaelDecrypt_rijndaelEncrypt _ h
  obtain ⟨sent, datagram, -, -, htype, hsent⟩ := system_command hi he
    broadcastHeader_ok (show ([1, 1, 1, 1] : List UInt8).length = 4 from rfl)
    (show encLen (commandLen ⟨[105, 100], by decide⟩) ≤ msgbufSize by decide)
  obtain ⟨s', hp, hl⟩ := hsent (d.env router home (udpFrame broadcastHeader datagram))
  obtain ⟨d', hd', rfl⟩ := packet_of_handle hp (by rw [htype]; decide)
  rw [packet_log hd', systems_append, passed_short he.bufSize (by decide)] at hl
  have hnew := List.append_cancel_left hl
  have hmem : [105, 100] ∈ systems (newEvents d.server d'.server) := by
    rw [hnew]
    exact List.mem_singleton.mpr rfl
  obtain ⟨e, hc, he⟩ := List.mem_filterMap.mp hmem
  cases e with
  | system cmd =>
    refine ⟨_, d, _, d', cmd, hrun, hd', hc, ?_⟩
    exact commands_keyed Aes.rijndael router _ home _ hrun hd' hc
  | _ => cases he

end Ead
