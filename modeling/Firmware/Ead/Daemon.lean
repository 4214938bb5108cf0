import Firmware.Ead.Agree
import Firmware.Ead.Session

/-!
# ead: the daemon

`ead.c` with the SRP library in it: what the calls out of `ead.c` return is no longer an argument.

* `passwdLines`, `preparePassword`   the password file;
* `Router`, `Os`         what is left to the machine: where the toolchain puts an array of `const char`, the file, the
                         random bytes, what the stack has, `pipe` and `fork`;
* `Daemon`, `Daemon.env`, `Daemon.packet`   the process, and a frame;
* `Login`                what a login is about: a name, its password, a secret of the server;
* `Progress`             the state stands for what the two sides have hashed;
* `commands_keyed`       who can have a command executed.
-/

set_option linter.unusedVariables false

namespace Ead
open Img Word Srp

/-! ## the password file -/

/-- the length of what `fgets(lbuf, n, f)` reads -/
def fgetsLength (n : Nat) (file : List UInt8) : Nat :=
  match (file.take (n - 1)).idxOf? 10 with
  | some i => i + 1
  | none => (file.take (n - 1)).length

/-- the strings in `lbuf`, one for each `fgets` -/
def lbufs : Nat → List UInt8 → List (List UInt8)
  | 0, _ => []
  | fuel + 1, file =>
    if file = [] then []
    else (file.take (fgetsLength 1023 file)).takeWhile (· ≠ 0) :: lbufs fuel (file.drop (fgetsLength 1023 file))

/-- a turn of the loop in `prepare_password`: what is copied to `pw_saltbuf`, and to `password` -/
def passwdLine (username lbuf : List UInt8) : Option (List UInt8) × Option (List UInt8) :=
  let ulen := username.length
  if lbuf.take ulen ≠ username then (none, none)
  else if lbuf.getD ulen 0 ≠ 58 then (none, none)
  else
    let str := lbuf.drop (ulen + 1)
    if str.take 3 ≠ [36, 49, 36] then (none, none)
    else
      match (str.drop 3).idxOf? 36 with
      | none => (none, none)
      | some i =>
        let salt := str.take (3 + i)
        if 3 + i ≥ maxSaltLen then (none, none)
        else
          match (str.drop (3 + i)).idxOf? 58 with
          | none => (some salt, none)
          | some j =>
            if 3 + i + j ≥ maxParamLen.toNat then (some salt, none) else (some salt, some (str.take (3 + i + j)))

/-- the loop; a salt is copied even when the line is not taken in the end -/
def passwdLines (username : List UInt8) : List (List UInt8) → List (List UInt8) × Option (List UInt8)
  | [] => ([], none)
  | lbuf :: l =>
    let r := passwdLine username lbuf
    if r.2.isSome then (r.1.toList, r.2)
    else ((r.1.toList ++ (passwdLines username l).1), (passwdLines username l).2)

/-- `random` is what `/dev/urandom` gives to `t_random`, and `dig` what `memcmp` finds at the array of this name: it has
20 bytes, none of them set yet, and the comparison reads 32 -/
structure Os where
  passwd : Option (List UInt8)
  random : List UInt8
  dig : List UInt8
  dig_length : dig.length = maxSaltLen
  pipe : Bool
  fork : Bool
  reads : List (List UInt8)
  childPending : Bool

/-- the search for a user name -/
def Os.search (os : Os) (username : List UInt8) : List (List UInt8) × Option (List UInt8) :=
  match os.passwd with
  | none => ([], none)
  | some file => passwdLines username (lbufs file.length file)

/-- `tce`: "id is index origin 1", and `tpe.index` is 1 -/
@[irreducible]
def conf : Confent := (gettcid 1).getD ⟨[], []⟩

/-- `password` is declared `static const char [MAXPARAMLEN]` and written by `strncpy`; `writable` says that the toolchain
has put it where the write goes through and is read back, else the write ends the process -/
structure Router where
  host : Host
  cfg : Config
  big : cfg.big = host.big
  writable : Bool

/-- what `prepare_password` leaves: the salts that it copied, `saltbuf`, and `tpe` when the file has the name -/
structure Prepared where
  salts : List (List UInt8)
  saltbuf : List UInt8
  tpe : Option Pwent

/-- `prepare_password`.  It does not come back when the write to `password` ends the process, nor when `saltbuf` is what
`memcmp` finds at `dig`: `t_random` changes neither of the two, and the loop goes on.  `tpe.salt.len` is 0. -/
def preparePassword (m : Router) (os : Os) (saltbuf username : List UInt8) : Option Prepared :=
  match (os.search username).2 with
  | none => some ⟨(os.search username).1, saltbuf, none⟩
  | some password =>
    if m.writable = false then none
    else if saltbuf = os.dig then none
    else
      some ⟨(os.search username).1, if saltbuf.head? = some 0 then 255 :: saltbuf.tail else saltbuf,
        some ⟨username, verifier m.host conf.modulus conf.generator [] username password, []⟩⟩

/-! ## the process -/

structure Daemon where
  server : Server
  ts : Option TServer
  pwSalt : List UInt8
  saltbuf : List UInt8

def Daemon.init : Daemon :=
  ⟨Server.init, none, List.replicate maxSaltLen 0, List.replicate maxSaltLen 0⟩

def Frame.username (f : Frame) : List UInt8 := ((slice f.data 0 32).takeWhile (· ≠ 0)).take 31

/-- `A` -/
def Frame.number (f : Frame) : List UInt8 := slice f.data 1 (toInt (f.msgLen - 1)).toNat

section
variable (m : Router) (os : Os) (d : Daemon) (f : Frame)

def Daemon.prepared : Option Prepared := preparePassword m os d.saltbuf f.username

/-- what the calls return when they are made for this frame, and come back -/
def Daemon.env : Env where
  preparePassword := (d.prepared m os f).elim false (·.tpe.isSome)
  serveropenraw := true
  prime := 0
  salt := d.ts.elim [] (·.s)
  extSalt := d.pwSalt
  servergenexp := d.ts.map fun t => (servergenexp m.host os.random t).bigB
  servergetkey := d.ts.bind fun t => (servergetkey m.host t f.number).2
  serververify := d.ts.elim false fun t => (serververify m.host t (f.data.take 20)).2
  serverresponse := d.ts.elim [] fun t => (serververify m.host t (f.data.take 20)).1.sessionResponse
  pipe := os.pipe
  fork := os.fork
  reads := os.reads
  childPending := os.childPending

/-- the type of a frame that came to its handler -/
def handledType (s s' : Server) : Option Int :=
  match newEvents s s' with
  | .handled type _ :: _ => some type
  | _ => none

/-- what a handler of the type, and the state after it, make of the server of the SRP library -/
def Daemon.nextServer (type : Int) : Option TServer :=
  if type = typeSetUsername then
    ((d.prepared m os f).bind (·.tpe)).map fun ent => serveropenraw m.host ent conf
  else if type = typeGetPrime then d.ts.map (servergenexp m.host os.random)
  else if type = typeSendA then
    if toInt (f.msgLen - 1) > maxParamLen + 1 then d.ts else d.ts.map fun t => (servergetkey m.host t f.number).1
  else if type = typeSendAuth then
    d.ts.bind fun t => if (serververify m.host t (f.data.take 20)).2 then some (serververify m.host t (f.data.take 20)).1
      else none
  else d.ts

/-- and of `pw_saltbuf` and `saltbuf` -/
def Daemon.nextSalt (type : Int) : List UInt8 :=
  if type = typeSetUsername then
    (d.prepared m os f).elim d.pwSalt fun p => p.salts.foldl (fun buf salt => poke buf 0 (salt ++ [0])) d.pwSalt
  else d.pwSalt

def Daemon.nextSaltbuf (type : Int) : List UInt8 :=
  if type = typeSetUsername then (d.prepared m os f).elim d.saltbuf (·.saltbuf) else d.saltbuf

def Daemon.next (s : Server) (type : Int) : Daemon :=
  ⟨s, d.nextServer m os f type, d.nextSalt m os f type, d.nextSaltbuf m os f type⟩

/-- behind the handler of a name `set_state` calls `prepare_password` -/
def Daemon.packet (aes : Cipher) : Option Daemon :=
  (handlePacket aes m.cfg (d.env m os f) d.server f).bind fun s =>
    match handledType d.server s with
    | none => some { d with server := s }
    | some type =>
      if type = typeSetUsername ∧ d.prepared m os f = none then none else some (d.next m os f s type)

end

/-- the frames of a run, and the machine at each of them -/
def runDaemon (aes : Cipher) (m : Router) : Daemon → List (Os × Frame) → Option Daemon
  | d, [] => some d
  | d, (os, f) :: l => (d.packet m os f aes).bind fun d => runDaemon aes m d l

/-! ## which handler is called -/

section
variable {aes : Cipher} {cfg : Config} {env : Env} {s s' : Server} {f : Frame}

theorem key_sendData (aes : Cipher) (reads : List (List UInt8)) :
    ∀ s : Server, (reads.foldl (sendData aes) s).crypt.key = s.crypt.key := by
  induction reads with
  | nil =>
    intro s
    rfl
  | cons bytes reads ih =>
    intro s
    exact ih (sendData aes s bytes)

theorem key_replyCmd (aes : Cipher) (env : Env) (s : Server) (stream : Bool) :
    (replyCmd aes env s stream).server.crypt.key = s.crypt.key := by
  unfold replyCmd
  split
  · split
    · exact key_sendData aes env.reads s
    · exact key_sendData aes env.reads s
  · rfl

/-- `handle_send_cmd` keeps the key, and what it executes is what it decrypted -/
theorem handleSendCmd_system (aes : Cipher) (cfg : Config) (env : Env) (s : Server) (f : Frame) :
    (handleSendCmd aes cfg env s f).server.crypt.key = s.crypt.key ∧
    ∃ l, Replies l ∧ ((handleSendCmd aes cfg env s f).server.log = s.log ++ l ∨
      (handleSendCmd aes cfg env s f).server.log =
        s.log ++ .system (cmdOf (decryptMessage aes s.crypt f.msgLen f.data)) :: l ∧
      (cmdSize : Int) < (decryptMessage aes s.crypt f.msgLen f.data).ret) := by
  have hk := decrypt_key aes s.crypt f.msgLen f.data
  unfold handleSendCmd
  dsimp only
  generalize decryptMessage aes s.crypt f.msgLen f.data = d at hk ⊢
  have hnone : ∃ l, Replies l ∧ (s.log = s.log ++ l ∨ s.log = s.log ++ .system (cmdOf d) :: l ∧ (cmdSize : Int) < d.ret) :=
    ⟨[], replies_nil, Or.inl (List.append_nil _).symm⟩
  have hstart : ∀ stream, (cmdSize : Int) < d.ret →
      (replyCmd aes env ({ s with crypt := d.crypt }.emit (.system (cmdOf d))) stream).server.crypt.key = s.crypt.key ∧
      ∃ l, Replies l ∧
        ((replyCmd aes env ({ s with crypt := d.crypt }.emit (.system (cmdOf d))) stream).server.log = s.log ++ l ∨
        (replyCmd aes env ({ s with crypt := d.crypt }.emit (.system (cmdOf d))) stream).server.log =
          s.log ++ .system (cmdOf d) :: l ∧ (cmdSize : Int) < d.ret) := by
    intro stream hd
    obtain ⟨l, hl, ha, -⟩ := adds_replyCmd aes env ({ s with crypt := d.crypt }.emit (.system (cmdOf d))) stream
    refine ⟨(key_replyCmd aes env _ stream).trans hk, l, hl, Or.inr ⟨?_, hd⟩⟩
    rw [ha.log]
    exact List.append_assoc s.log [.system (cmdOf d)] l
  split
  · exact ⟨hk, hnone⟩
  next hret =>
  split
  · split
    · exact ⟨hk, hnone⟩
    · exact hstart true (by omega)
  split
  · split
    · exact ⟨hk, hnone⟩
    · exact hstart false (by omega)
  · exact ⟨hk, hnone⟩

theorem setState_log (cfg : Config) (env : Env) (s : Server) (n : Int) :
    ∃ l, (setState cfg env s n).log = s.log ++ l ∧ ∀ cmd, .system cmd ∉ l := by
  have hsame : ∃ l, s.log = s.log ++ l ∧ ∀ cmd, Event.system cmd ∉ l := ⟨[], (List.append_nil _).symm, nofun⟩
  unfold setState
  split
  · exact hsame
  split
  · split
    · exact ⟨[.closed s.ts], rfl, fun cmd hc => nomatch List.mem_singleton.mp hc⟩
    · exact hsame
  split
  · split
    · exact hsame
    split
    · exact hsame
    · exact ⟨[.opened (some s.opens)], rfl, fun cmd hc => nomatch List.mem_singleton.mp hc⟩
  split
  · exact hsame
  split
  · split
    · exact hsame
    · exact ⟨[.gotKey s.ts], rfl, fun cmd hc => nomatch List.mem_singleton.mp hc⟩
  · exact hsame

/-- what a handler adds to the log: a command only when it is that of commands -/
theorem handle_log {type : Int} {o : Outcome} (hmin : minLen type ≠ none)
    (h : handle aes cfg env s f type = some o) : ∃ l, o.server.log = s.log ++ l ∧ ∀ cmd, .system cmd ∈ l →
      type = typeSendCmd ∧ (cmdSize : Int) < (decryptMessage aes s.crypt f.msgLen f.data).ret ∧
      cmd = cmdOf (decryptMessage aes s.crypt f.msgLen f.data) := by
  obtain ⟨-, rfl⟩ | ⟨-, rfl⟩ | ⟨-, h⟩ | ⟨-, h⟩ | ⟨-, rfl⟩ | ⟨hs, rfl⟩ := handle_cases hmin h
  · exact ⟨[], (List.append_nil _).symm, nofun⟩
  · obtain ⟨l, hl, hno⟩ := setState_log cfg env s typeSetUsername
    exact ⟨l, hl, fun cmd hc => absurd hc (hno cmd)⟩
  · exact ⟨[], (handleGetPrime_adds h).2.1.log, nofun⟩
  · exact ⟨[], (handleSendA_adds h).1.log, nofun⟩
  · obtain ⟨h, -⟩ | ⟨h, -⟩ := handleSendAuth_adds env s
    · exact ⟨[], h.log, nofun⟩
    · exact ⟨[.verified s.ts], h.log, fun cmd hc => nomatch List.mem_singleton.mp hc⟩
  · obtain ⟨-, l, hl, hlog | ⟨hlog, hret⟩⟩ := handleSendCmd_system aes cfg env s f
    · exact ⟨l, hlog, fun cmd hc => absurd rfl (hl.ne hc rfl)⟩
    · refine ⟨_, hlog, fun cmd hc => ⟨hs, hret, ?_⟩⟩
      rcases List.mem_cons.mp hc with hc | hc
      · exact Event.system.inj hc
      · exact absurd rfl (hl.ne hc rfl)

theorem newEvents_append {l : List Event} (h : s'.log = s.log ++ l) : newEvents s s' = l := by
  unfold newEvents
  rw [h, List.drop_left]

/-- the events of a frame, that of the handler first -/
theorem events_finish {type : Int} {o : Outcome} (hmin : minLen type ≠ none)
    (h : handle aes cfg env (s.start type) f type = some o) : ∃ l,
    newEvents s (finish cfg env type o) = .handled type s.ts :: l ∧ ∀ cmd, .system cmd ∈ l →
      type = typeSendCmd ∧ (cmdSize : Int) < (decryptMessage aes s.crypt f.msgLen f.data).ret ∧
      cmd = cmdOf (decryptMessage aes s.crypt f.msgLen f.data) := by
  obtain ⟨l, hl, hcmd⟩ := handle_log hmin h
  obtain ⟨s', l', hl', ha, he⟩ := finish_eq cfg env type o
  obtain ⟨l'', hl'', hno⟩ := setState_log cfg env s' o.nstate
  refine ⟨l ++ l' ++ l'', newEvents_append ?_, ?_⟩
  · rw [he, hl'', ha.log, hl]
    simp [Server.start, Server.emit]
  · intro cmd hc
    rcases List.mem_append.mp hc with hc | hc
    · rcases List.mem_append.mp hc with hc | hc
      · exact hcmd cmd hc
      · exact absurd rfl (hl'.ne hc rfl)
    · exact absurd hc (hno cmd)

theorem handled_finish {type : Int} {o : Outcome} (hmin : minLen type ≠ none)
    (h : handle aes cfg env (s.start type) f type = some o) : handledType s (finish cfg env type o) = some type := by
  obtain ⟨l, hl, -⟩ := events_finish hmin h
  unfold handledType
  rw [hl]

end

section
variable {aes : Cipher} {m : Router} {os : Os} {d d' : Daemon} {f : Frame}

/-- what a frame does: nothing, or one handler is called, and comes back from `prepare_password` -/
theorem packet_cases (h : d.packet m os f aes = some d') : d' = d ∨ ∃ o, minLen (toInt f.msgType) ≠ none ∧
    (typeGetPrime ≤ toInt f.msgType → d.server.state = toInt f.msgType) ∧
    handle aes m.cfg (d.env m os f) (d.server.start (toInt f.msgType)) f (toInt f.msgType) = some o ∧
    (toInt f.msgType = typeSetUsername → ∃ p, d.prepared m os f = some p) ∧
    d' = d.next m os f (finish m.cfg (d.env m os f) (toInt f.msgType) o) (toInt f.msgType) := by
  obtain ⟨s, hs, hd'⟩ := Option.bind_eq_some_iff.mp h
  have hquiet : handledType d.server d.server = none := by
    unfold handledType
    rw [newEvents_append (List.append_nil _).symm]
  obtain rfl | hp := handlePacket_cases hs
  · rw [hquiet] at hd'
    exact Or.inl (Option.some.inj hd').symm
  obtain rfl | ⟨type, o, rfl, hstate, hmin, ho, rfl⟩ := parseMessage_cases hp
  · rw [hquiet] at hd'
    exact Or.inl (Option.some.inj hd').symm
  · rw [handled_finish hmin ho] at hd'
    dsimp only at hd'
    split at hd'
    · cases hd'
    next hprep =>
      refine Or.inr ⟨o, hmin, hstate, ho, fun ht => ?_, (Option.some.inj hd').symm⟩
      exact Option.ne_none_iff_exists'.mp fun hn => hprep ⟨ht, hn⟩

/-- a frame without a name goes on behind its handler -/
theorem packet_of_handle {s : Server} (hs : handlePacket aes m.cfg (d.env m os f) d.server f = some s)
    (ht : toInt f.msgType ≠ typeSetUsername) : ∃ d', d.packet m os f aes = some d' ∧ d'.server = s := by
  have hnext (type : Int) (h : handledType d.server s = some type) : type ≠ typeSetUsername := by
    obtain rfl | hp := handlePacket_cases hs
    · rw [handledType, newEvents_append (List.append_nil _).symm] at h
      cases h
    obtain rfl | ⟨type', o, rfl, -, hmin, ho, rfl⟩ := parseMessage_cases hp
    · rw [handledType, newEvents_append (List.append_nil _).symm] at h
      cases h
    · rw [handled_finish hmin ho] at h
      exact Option.some.inj h ▸ ht
  unfold Daemon.packet
  rw [hs, Option.bind_some]
  split
  · exact ⟨_, rfl, rfl⟩
  next type htype =>
    rw [if_neg fun h => hnext type htype h.1]
    exact ⟨_, rfl, rfl⟩

/-- a call of `prepare_password` that comes back -/
theorem prepared_cases {p : Prepared} (h : d.prepared m os f = some p) :
    ((os.search f.username).2 = none ∧ p.tpe = none) ∨
    ∃ password, (os.search f.username).2 = some password ∧ m.writable = true ∧
      p.tpe = some ⟨f.username, verifier m.host conf.modulus conf.generator [] f.username password, []⟩ := by
  unfold Daemon.prepared preparePassword at h
  split at h
  · next hpw =>
    obtain rfl := Option.some.inj h
    exact Or.inl ⟨hpw, rfl⟩
  next password hpw =>
  split at h
  · cases h
  next hw =>
  split at h
  · cases h
  · obtain rfl := Option.some.inj h
    exact Or.inr ⟨password, hpw, Bool.not_eq_false _ ▸ hw, rfl⟩

/-- with a name of the file, where the write goes through -/
theorem prepared_found {password : List UInt8} (hpw : (os.search f.username).2 = some password)
    (hw : m.writable = true) (hdig : d.saltbuf ≠ os.dig) : ∃ p, d.prepared m os f = some p ∧
      p.tpe = some ⟨f.username, verifier m.host conf.modulus conf.generator [] f.username password, []⟩ := by
  unfold Daemon.prepared preparePassword
  rw [hpw]
  dsimp only
  rw [hw, if_neg (by decide), if_neg hdig]
  exact ⟨_, rfl, rfl⟩

end

/-! ## a login -/

/-- the parameters of the first entry of the table -/
theorem root_conf : Setup.root.tce = conf := by
  unfold Setup.root conf
  rfl

theorem conf_table : getpreparam 0 = some conf := by
  rw [← root_conf]
  exact Setup.root_open

theorem conf_ok : Short conf.modulus ∧ Short conf.generator ∧ 1 < Bits.ofBytes conf.modulus := by
  obtain ⟨-, h1, h2, h3⟩ := (preParams_ok 0 (by decide)).2 conf conf_table
  refine ⟨?_, ?_, h3⟩
  · exact Nat.lt_of_le_of_lt (Nat.add_le_add_right h1 63) (by decide)
  · exact Nat.lt_of_le_of_lt (Nat.add_le_add_right h2 63) (by decide)

/-- the user, his password as it is in the file, and the random bytes of the server -/
structure Login where
  name : List UInt8
  password : List UInt8
  random : List UInt8

namespace Login

def n : Nat := Bits.ofBytes conf.modulus
def g : Nat := Bits.ofBytes conf.generator

/-- the verifier -/
def v (l : Login) : Nat := g ^ passwordOf [] l.name l.password % n

def b (l : Login) : Nat := secretOf conf.modulus l.random

/-- what the server sends -/
def bigB (l : Login) : List UInt8 := natBytes (publicB g l.v n l.b)

def opening (l : Login) : List UInt8 := Srp.opening conf.modulus conf.generator l.name []

def residue (l : Login) (bigA : List UInt8) : Nat := Srp.residue l.v n (scrambleOf l.bigB) (Bits.ofBytes bigA)

/-- the server takes the number -/
def Usable (l : Login) (bigA : List UInt8) : Prop := ¬(l.residue bigA ≤ 1 ∨ l.residue bigA + 1 = n)

/-- the session key -/
def key (l : Login) (bigA : List UInt8) : List UInt8 := keyOf (natBytes (l.residue bigA ^ l.b % n))

/-- what is hashed before the last number, when others gave no key -/
def heard (l : Login) (tried : List (List UInt8)) : List UInt8 := l.opening ++ tried.flatMap (· ++ l.bigB)

/-- the two digests that the server takes -/
def proof (l : Login) (tried : List (List UInt8)) (bigA : List UInt8) : List UInt8 :=
  sha1 (l.heard tried ++ bigA ++ l.bigB ++ l.key bigA)

def oldProof (l : Login) (bigA : List UInt8) : List UInt8 := sha1 (l.bigB ++ l.key bigA)

/-! ## the frames of a login -/

/-- the frame with the name, which the password file has -/
def Names (l : Login) (u : Os × Frame) : Prop :=
  toInt u.2.msgType = typeSetUsername ∧ u.2.username = l.name ∧ (u.1.search l.name).2 = some l.password

/-- the frame after which the server makes its secret -/
def Asks (l : Login) (q : Os × Frame) : Prop := toInt q.2.msgType = typeGetPrime ∧ q.1.random = l.random

/-- these two frames are in the run, then frames with numbers that gave no key, then `more` -/
def Trace (l : Login) (tried : List (List UInt8)) (more frames : List (Os × Frame)) : Prop :=
  ∃ u q fs, (u :: q :: (fs ++ more)).Sublist frames ∧ l.Names u ∧ l.Asks q ∧ fs.map (·.2.number) = tried ∧
    ∀ f ∈ fs, toInt f.2.msgType = typeSendA

/-- the last number, and a digest that the server takes for it -/
structure Proves (l : Login) (frames : List (Os × Frame)) (tried : List (List UInt8)) (a r : Os × Frame) : Prop where
  trace : l.Trace tried [a, r] frames
  number : toInt a.2.msgType = typeSendA
  usable : l.Usable a.2.number
  auth : toInt r.2.msgType = typeSendAuth
  proof : r.2.data.take 20 = l.proof tried a.2.number ∨ r.2.data.take 20 = l.oldProof a.2.number

/-! ## what the server has -/

structure Has (l : Login) (t : TServer) : Prop where
  n : t.n = conf.modulus
  g : t.g = conf.generator
  v : Bits.ofBytes t.v = l.v

/-- and its secret -/
structure Offers (l : Login) (t : TServer) : Prop extends l.Has t where
  b : Bits.ofBytes t.b = l.b
  bigB : t.bigB = l.bigB

variable {l : Login} {h : Host} {t : TServer} {tried : List (List UInt8)} {bigA : List UInt8}

theorem bigB_short (l : Login) : Short l.bigB := by
  have hn : 0 < n := Nat.lt_trans Nat.one_pos conf_ok.2.2
  exact natBytes_short conf_ok.1 (publicB_le (Nat.mod_lt _ hn))

theorem key_short (l : Login) (bigA : List UInt8) : Short (l.key bigA) := by
  unfold Short key
  rw [keyOf_length]
  decide

theorem servergenexp_offers (ht : l.Has t) (hh : Hashed h t [] [] [] l.opening) :
    l.Offers (servergenexp h l.random t) ∧
    Hashed h (servergenexp h l.random t) [] [] l.bigB (l.heard []) := by
  obtain ⟨hB, hb⟩ := servergenexp_eq h l.random t (by rw [ht.n]; exact conf_ok.2.2)
  rw [ht.n, ht.g, ht.v] at hB
  rw [ht.n] at hb
  change (servergenexp h l.random t).bigB = l.bigB at hB
  have hh' := servergenexp_hashed l.random hh (by rw [hB]; exact l.bigB_short)
  rw [hB, List.nil_append, ← List.append_nil l.opening] at hh'
  exact ⟨⟨⟨ht.n, ht.g, ht.v⟩, hb, hB⟩, hh'⟩

theorem servergetkey_usable (ht : l.Offers t) (hA : Short bigA)
    (hh : Hashed h t tried.flatten tried.flatten l.bigB (l.heard tried)) :
    (l.Usable bigA → (servergetkey h t bigA).2 = some (l.key bigA) ∧
      (servergetkey h t bigA).1.sessionKey = l.key bigA ∧
      Hashed h (servergetkey h t bigA).1 (tried.flatten ++ bigA ++ l.key bigA) (tried.flatten ++ bigA)
        (l.bigB ++ l.key bigA) (l.heard tried ++ bigA ++ l.bigB ++ l.key bigA)) ∧
    (¬l.Usable bigA → (servergetkey h t bigA).2 = none) := by
  have hn : 1 < Bits.ofBytes t.n := by
    rw [ht.n]
    exact conf_ok.2.2
  have hkey : l.key bigA = keyOf (natBytes (l.residue bigA ^ Bits.ofBytes t.b % Bits.ofBytes t.n)) := by
    rw [ht.b, ht.n]
    rfl
  obtain ⟨h1, h2⟩ := servergetkey_eq hh hn hA (by rw [ht.bigB]; exact l.bigB_short) (by rw [ht.n]; exact conf_ok.1)
    (r := l.residue bigA) (by rw [ht.v, ht.n, ht.bigB]; rfl) hkey
  rw [ht.n] at h1
  change _ = if l.residue bigA ≤ 1 ∨ l.residue bigA + 1 = n then none else some (l.key bigA) at h1
  rw [ht.bigB] at h2
  constructor
  · intro hu
    rw [if_neg hu] at h1
    exact ⟨h1, h2 h1⟩
  · intro hu
    rw [if_pos (not_not.mp hu)] at h1
    exact h1

/-- a number that gives no key stays hashed -/
theorem servergetkey_none (ht : l.Offers t) (hA : Short bigA)
    (hh : Hashed h t tried.flatten tried.flatten l.bigB (l.heard tried)) (hnone : (servergetkey h t bigA).2 = none) :
    l.Offers (servergetkey h t bigA).1 ∧
    Hashed h (servergetkey h t bigA).1 (tried ++ [bigA]).flatten (tried ++ [bigA]).flatten l.bigB
      (l.heard (tried ++ [bigA])) := by
  have hB : Short t.bigB := by
    rw [ht.bigB]
    exact l.bigB_short
  have hck := update_absorbed (update_absorbed hh.ckhash hA) hB
  have hold := update_absorbed hh.oldhash hA
  have hnew := update_absorbed hh.hash hA
  have hf : (tried ++ [bigA]).flatten = tried.flatten ++ bigA := by simp
  have hheard : l.heard (tried ++ [bigA]) = l.heard tried ++ bigA ++ t.bigB := by
    rw [ht.bigB]
    simp [heard]
  rw [hf, hheard]
  unfold servergetkey at hnone ⊢
  dsimp only at hnone ⊢
  split at hnone
  · next hc =>
    rw [if_pos hc]
    exact ⟨⟨⟨ht.n, ht.g, ht.v⟩, ht.b, ht.bigB⟩, hold, hnew, hh.oldckhash, hck⟩
  next hc =>
  split at hnone
  · next hc' =>
    rw [if_neg hc, if_pos hc']
    exact ⟨⟨⟨ht.n, ht.g, ht.v⟩, ht.b, ht.bigB⟩, hold, hnew, hh.oldckhash, hck⟩
  · cases hnone

theorem serververify_digest {old new : List UInt8} (resp : List UInt8)
    (hh : Hashed h t old new (l.bigB ++ l.key bigA) (l.heard tried ++ bigA ++ l.bigB ++ l.key bigA)) :
    (serververify h t resp).2 = true ↔ resp = l.proof tried bigA ∨ resp = l.oldProof bigA := by
  have hold : sha1Final h.big t.oldckhash = l.oldProof bigA := sha1Final_eq hh.oldckhash
  have hnew : sha1Final h.big t.ckhash = l.proof tried bigA := sha1Final_eq hh.ckhash
  unfold serververify
  dsimp only
  rw [hold, hnew]
  split
  · next hc => exact iff_of_true rfl (Or.inr hc.symm)
  next hc =>
  split
  · next hc' => exact iff_of_true rfl (Or.inl hc'.symm)
  · next hc' => exact iff_of_false Bool.false_ne_true fun h => h.elim (fun h => hc' h.symm) fun h => hc h.symm

end Login

/-! ## the stages of a run -/

/-- the state, the server of the SRP library and the key of the session, after the frames of a run -/
inductive Stage (h : Host) (frames : List (Os × Frame)) (state : Int) (ts : Option TServer) (key : List UInt8) : Prop where
  | start (hs : state = typeSetUsername) (ht : ts = none)
  | opened (l : Login) (t : TServer) (u : Os × Frame) (hs : state = typeGetPrime) (ht : ts = some t) (has : l.Has t)
      (hashed : Hashed h t [] [] [] l.opening) (trace : [u].Sublist frames) (names : l.Names u)
  | primed (l : Login) (t : TServer) (tried : List (List UInt8)) (hs : state = typeSendA) (ht : ts = some t)
      (offers : l.Offers t) (hashed : Hashed h t tried.flatten tried.flatten l.bigB (l.heard tried))
      (trace : l.Trace tried [] frames)
  | keyed (l : Login) (t : TServer) (tried : List (List UInt8)) (a : Os × Frame) (old new : List UInt8)
      (hs : state = typeSendAuth) (ht : ts = some t)
      (hashed : Hashed h t old new (l.bigB ++ l.key a.2.number)
        (l.heard tried ++ a.2.number ++ l.bigB ++ l.key a.2.number))
      (trace : l.Trace tried [a] frames) (number : toInt a.2.msgType = typeSendA) (usable : l.Usable a.2.number)
      (hk : key = (l.key a.2.number).take 16)
  | authed (l : Login) (tried : List (List UInt8)) (a r : Os × Frame) (hs : state = typeSendCmd)
      (proves : l.Proves frames tried a r) (hk : key = (l.key a.2.number).take 16)

/-- the log is that of the gate, the stage is that of the state, and a session has begun only where `password` can be
written -/
structure Progress (m : Router) (frames : List (Os × Frame)) (d : Daemon) : Prop where
  inv : Inv d.server
  stage : Stage m.host frames d.server.state d.ts d.server.crypt.key
  writes : d.server.state ≠ typeSetUsername → m.writable = true

section
variable {l : Login} {tried : List (List UInt8)} {more frames : List (Os × Frame)} {h : Host} {state : Int}
  {ts : Option TServer} {key : List UInt8}

theorem Login.Trace.mono (ht : l.Trace tried more frames) (x : Os × Frame) : l.Trace tried more (frames ++ [x]) := by
  obtain ⟨u, q, fs, hsub, hrest⟩ := ht
  exact ⟨u, q, fs, hsub.trans (List.sublist_append_left _ _), hrest⟩

theorem Login.Trace.add (ht : l.Trace tried more frames) (x : Os × Frame) :
    l.Trace tried (more ++ [x]) (frames ++ [x]) := by
  obtain ⟨u, q, fs, hsub, hrest⟩ := ht
  refine ⟨u, q, fs, ?_, hrest⟩
  have hadd := hsub.append (List.Sublist.refl [x])
  simpa using hadd

theorem Login.Trace.fail (ht : l.Trace tried [] frames) {x : Os × Frame} (hx : toInt x.2.msgType = typeSendA) :
    l.Trace (tried ++ [x.2.number]) [] (frames ++ [x]) := by
  obtain ⟨u, q, fs, hsub, hu, hq, hfs, htype⟩ := ht
  refine ⟨u, q, fs ++ [x], ?_, hu, hq, by rw [List.map_append, hfs]; rfl, ?_⟩
  · have hadd := hsub.append (List.Sublist.refl [x])
    simpa using hadd
  · intro f hf
    rcases List.mem_append.mp hf with hf | hf
    · exact htype f hf
    · rw [List.mem_singleton.mp hf]
      exact hx

theorem Stage.mono (hst : Stage h frames state ts key) (x : Os × Frame) : Stage h (frames ++ [x]) state ts key := by
  cases hst with
  | start hs ht => exact .start hs ht
  | opened l t u hs ht has hashed trace names =>
    exact .opened l t u hs ht has hashed (trace.trans (List.sublist_append_left _ _)) names
  | primed l t tried hs ht offers hashed trace => exact .primed l t tried hs ht offers hashed (trace.mono x)
  | keyed l t tried a old new hs ht hashed trace number usable hk =>
    exact .keyed l t tried a old new hs ht hashed (trace.mono x) number usable hk
  | authed l tried a r hs proves hk =>
    exact .authed l tried a r hs ⟨proves.trace.mono x, proves.number, proves.usable, proves.auth, proves.proof⟩ hk

end

section
variable {aes : Cipher} {cfg : Config} {env : Env} {s s' : Server} {f : Frame}

/-- before the state is set, only the log changes -/
theorem finish_frame (cfg : Config) (env : Env) (type : Int) (o : Outcome) : ∃ s : Server,
    s.state = o.server.state ∧ s.crypt = o.server.crypt ∧ s.ts = o.server.ts ∧
    finish cfg env type o = setState cfg env s o.nstate := by
  unfold finish
  cases o.reply with
  | false => exact ⟨o.server, rfl, rfl, rfl, rfl⟩
  | true => exact ⟨sendPacketClone o.server (type + 1), rfl, rfl, rfl, rfl⟩

theorem finish_stay (cfg : Config) (env : Env) (type : Int) {o : Outcome} (hn : o.nstate = o.server.state) :
    (finish cfg env type o).state = o.server.state ∧ (finish cfg env type o).crypt = o.server.crypt := by
  obtain ⟨s, h1, h2, -, he⟩ := finish_frame cfg env type o
  rw [he, setState_same (h1.trans hn.symm)]
  exact ⟨h1, h2⟩

end

/-! ## a frame -/

theorem username_short (f : Frame) : Short f.username := by
  have h : f.username.length ≤ 31 := List.length_take_le _ _
  unfold Short
  omega

theorem passwdLine_short {username lbuf password : List UInt8} (h : (passwdLine username lbuf).2 = some password) :
    password.length < 256 := by
  unfold passwdLine at h
  dsimp only at h
  split at h
  · cases h
  split at h
  · cases h
  split at h
  · cases h
  split at h
  · cases h
  split at h
  · cases h
  split at h
  · cases h
  split at h
  · cases h
  next hlt =>
    rw [← Option.some.inj h, List.length_take]
    have hm : maxParamLen.toNat = 256 := rfl
    omega

theorem passwdLines_short {username password : List UInt8} {l : List (List UInt8)}
    (h : (passwdLines username l).2 = some password) : password.length < 256 := by
  induction l with
  | nil => cases h
  | cons lbuf l ih =>
    unfold passwdLines at h
    dsimp only at h
    split at h
    · exact passwdLine_short h
    · exact ih h

theorem search_short {os : Os} {username password : List UInt8} (h : (os.search username).2 = some password) :
    Short password := by
  unfold Os.search at h
  unfold Short
  split at h
  · cases h
  · have := passwdLines_short h
    omega

section
variable {aes : Cipher} {m : Router} {os : Os} {d d' : Daemon} {f : Frame} {frames : List (Os × Frame)} {o : Outcome}

/-- a name: the session ends, and a server is opened when the password file has the name -/
theorem stage_setUsername (hp : Progress m frames d) (ho : o = handleSetUsername m.cfg (d.env m os f)
      (d.server.start typeSetUsername) f) (hf : toInt f.msgType = typeSetUsername) {p : Prepared}
    (hprep : d.prepared m os f = some p) :
    Stage m.host (frames ++ [(os, f)]) (finish m.cfg (d.env m os f) typeSetUsername o).state
      (d.nextServer m os f typeSetUsername) (finish m.cfg (d.env m os f) typeSetUsername o).crypt.key ∧
    ((finish m.cfg (d.env m os f) typeSetUsername o).state ≠ typeSetUsername → m.writable = true) := by
  obtain ⟨hn, hst, -⟩ := handleSetUsername_eq m.cfg (d.env m os f) f (s := d.server.start typeSetUsername)
    hp.inv.reached
  rw [← ho] at hn hst
  obtain ⟨s', h1, h2, -, he⟩ := finish_frame m.cfg (d.env m os f) typeSetUsername o
  rw [he, hn]
  have hnext : d.nextServer m os f typeSetUsername = p.tpe.map fun ent => serveropenraw m.host ent conf := by
    unfold Daemon.nextServer
    rw [if_pos rfl, hprep]
    rfl
  have hset : setState m.cfg (d.env m os f) s' typeGetPrime =
      if p.tpe.isSome = false then s' else { s'.open with state := typeGetPrime } := by
    have henv : (d.env m os f).preparePassword = p.tpe.isSome := by
      unfold Daemon.env
      rw [hprep]
      rfl
    unfold setState
    rw [h1.trans hst, if_neg (by decide), if_neg (by decide), if_pos rfl, henv]
    rfl
  rw [hset, hnext]
  obtain ⟨-, htpe⟩ | ⟨password, hpw, hw, htpe⟩ := prepared_cases hprep
  · rw [htpe, Option.isSome_none, if_pos rfl]
    exact ⟨.start (h1.trans hst) rfl, fun h => absurd (h1.trans hst) h⟩
  · rw [htpe, Option.isSome_some, if_neg (by decide)]
    have hs : Short [] := by
      unfold Short
      decide
    refine ⟨.opened ⟨f.username, password, []⟩ _ (os, f) rfl rfl ⟨rfl, rfl, ?_⟩ ?_ (List.sublist_append_right _ _)
      ⟨hf, rfl, hpw⟩, fun _ => hw⟩
    · show Bits.ofBytes (verifier m.host conf.modulus conf.generator [] f.username password) = _
      rw [verifier_eq m.host hs (username_short f) (search_short hpw) conf_ok.2.2, ofBytes_natBytes]
      rfl
    · exact serveropenraw_hashed m.host conf_ok.1 conf_ok.2.1 (username_short f) hs

theorem stage_getPrime (hst : Stage m.host frames d.server.state d.ts d.server.crypt.key)
    (hs : d.server.state = typeGetPrime)
    (ho : handleGetPrime (d.env m os f) (d.server.start typeGetPrime) = some o) (hf : toInt f.msgType = typeGetPrime) :
    Stage m.host (frames ++ [(os, f)]) (finish m.cfg (d.env m os f) typeGetPrime o).state
      (d.nextServer m os f typeGetPrime) (finish m.cfg (d.env m os f) typeGetPrime o).crypt.key := by
  obtain ⟨t', ht', rfl⟩ := Option.map_eq_some_iff.mp ho
  obtain ⟨s', h1, h2, -, he⟩ := finish_frame m.cfg (d.env m os f) typeGetPrime _
  rw [he]
  have hset : setState m.cfg (d.env m os f) s' typeSendA =
      { s' with b := (d.env m os f).servergenexp, state := typeSendA } := by
    unfold setState
    rw [h1.trans hs, if_neg (by decide), if_neg (by decide), if_neg (by decide), if_pos rfl]
  rw [hset]
  have hnext : d.nextServer m os f typeGetPrime = d.ts.map (servergenexp m.host os.random) := rfl
  cases hst with
  | opened l t u _ ht has hashed trace names =>
    rw [hnext, ht]
    obtain ⟨h3, h4⟩ := Login.servergenexp_offers (l := ⟨l.name, l.password, os.random⟩) (t := t)
      ⟨has.n, has.g, has.v⟩ hashed
    refine .primed ⟨l.name, l.password, os.random⟩ _ [] rfl rfl h3 h4 ?_
    exact ⟨u, (os, f), [], trace.append (List.Sublist.refl [(os, f)]), names, ⟨hf, rfl⟩, rfl, nofun⟩
  | start h _ => exact absurd (hs.symm.trans h) (by decide)
  | primed _ _ _ h => exact absurd (hs.symm.trans h) (by decide)
  | keyed _ _ _ _ _ _ h => exact absurd (hs.symm.trans h) (by decide)
  | authed _ _ _ _ h => exact absurd (hs.symm.trans h) (by decide)

/-- a number: the key is that of the login, or the number stays hashed -/
theorem stage_sendA (hst : Stage m.host frames d.server.state d.ts d.server.crypt.key)
    (hs : d.server.state = typeSendA)
    (ho : handleSendA (d.server.start typeSendA) f = some o) (hf : toInt f.msgType = typeSendA) :
    Stage m.host (frames ++ [(os, f)]) (finish m.cfg (d.env m os f) typeSendA o).state
      (d.nextServer m os f typeSendA) (finish m.cfg (d.env m os f) typeSendA o).crypt.key := by
  have hnext : d.nextServer m os f typeSendA = if toInt (f.msgLen - 1) > maxParamLen + 1 then d.ts
      else d.ts.map fun t => (servergetkey m.host t f.number).1 := rfl
  unfold handleSendA at ho
  dsimp only at ho
  by_cases hlong : toInt (f.msgLen - 1) > maxParamLen + 1
  · rw [if_pos hlong] at ho
    obtain rfl := Option.some.inj ho
    obtain ⟨h1, h2⟩ := finish_stay m.cfg (d.env m os f) typeSendA
      (o := ⟨d.server.start typeSendA, false, (d.server.start typeSendA).state⟩) rfl
    rw [h1, h2, hnext, if_pos hlong]
    exact hst.mono (os, f)
  rw [if_neg hlong] at ho hnext
  split at ho
  · cases ho
  obtain ⟨b, -, rfl⟩ := Option.map_eq_some_iff.mp ho
  obtain ⟨s', h1, h2, -, he⟩ := finish_frame m.cfg (d.env m os f) typeSendA _
  rw [he, setState_sendAuth (h1.trans hs), hnext]
  have hA : Short f.number := by
    have hlen : f.number.length ≤ (toInt (f.msgLen - 1)).toNat := List.length_take_le _ _
    unfold maxParamLen at hlong
    unfold Short
    omega
  cases hst with
  | primed l t tried _ ht offers hashed trace =>
    have henv : (d.env m os f).servergetkey = (servergetkey m.host t f.number).2 := by
      unfold Daemon.env
      rw [ht]
      rfl
    rw [henv, ht]
    obtain ⟨hyes, hno⟩ := Login.servergetkey_usable offers hA hashed
    by_cases hu : l.Usable f.number
    · obtain ⟨hkey, hsk, hh⟩ := hyes hu
      rw [hkey, Option.elim_some, Option.map_some]
      have hk : (setKey m.cfg.big (l.key f.number) s'.crypt).key = (l.key f.number).take 16 := rfl
      exact .keyed l _ tried (os, f) _ _ rfl rfl hh (trace.add (os, f)) hf hu hk
    · have hnone := hno hu
      obtain ⟨h3, h4⟩ := Login.servergetkey_none offers hA hashed hnone
      rw [hnone]
      exact .primed l _ (tried ++ [f.number]) (h1.trans hs) rfl h3 h4 (trace.fail (x := (os, f)) hf)
  | start h _ => exact absurd (hs.symm.trans h) (by decide)
  | opened _ _ _ h => exact absurd (hs.symm.trans h) (by decide)
  | keyed _ _ _ _ _ _ h => exact absurd (hs.symm.trans h) (by decide)
  | authed _ _ _ _ h => exact absurd (hs.symm.trans h) (by decide)

/-- a digest: one of the two that the server expects, or the session ends -/
theorem stage_sendAuth (hp : Progress m frames d) (hs : d.server.state = typeSendAuth)
    (ho : o = handleSendAuth (d.env m os f) (d.server.start typeSendAuth)) (hf : toInt f.msgType = typeSendAuth) :
    Stage m.host (frames ++ [(os, f)]) (finish m.cfg (d.env m os f) typeSendAuth o).state
      (d.nextServer m os f typeSendAuth) (finish m.cfg (d.env m os f) typeSendAuth o).crypt.key := by
  have hnext : d.nextServer m os f typeSendAuth = d.ts.bind fun t =>
      if (serververify m.host t (f.data.take 20)).2 then some (serververify m.host t (f.data.take 20)).1
      else none := rfl
  obtain ⟨s', h1, h2, -, he⟩ := finish_frame m.cfg (d.env m os f) typeSendAuth o
  rw [he, hnext]
  cases hp.stage with
  | keyed l t tried a old new _ ht hashed trace number usable hk =>
    have henv : (d.env m os f).serververify = (serververify m.host t (f.data.take 20)).2 := by
      unfold Daemon.env
      rw [ht]
      rfl
    rw [ht]
    have hdig := Login.serververify_digest (f.data.take 20) hashed
    obtain ⟨hstate, hcrypt, hn⟩ : o.server.state = d.server.state ∧ o.server.crypt = d.server.crypt ∧
        o.nstate = if (serververify m.host t (f.data.take 20)).2 = true then typeSendCmd else typeSetUsername := by
      rw [ho]
      unfold handleSendAuth
      rw [henv]
      cases (serververify m.host t (f.data.take 20)).2 with
      | false => exact ⟨rfl, rfl, rfl⟩
      | true => exact ⟨rfl, rfl, rfl⟩
    have hs' : s'.state = typeSendAuth := h1.trans (hstate.trans hs)
    rw [hn]
    by_cases hv : (serververify m.host t (f.data.take 20)).2 = true
    · have hset : setState m.cfg (d.env m os f) s' typeSendCmd = { s' with state := typeSendCmd } := by
        unfold setState
        rw [hs', if_neg (by decide), if_neg (by decide), if_neg (by decide), if_neg (by decide), if_neg (by decide)]
      rw [if_pos hv, hset]
      refine .authed l tried a (os, f) rfl ⟨trace.add (os, f), number, usable, hf, hdig.mp hv⟩ ?_
      show s'.crypt.key = _
      rw [h2, hcrypt]
      exact hk
    · have hset : (setState m.cfg (d.env m os f) s' typeSetUsername).state = typeSetUsername := by
        unfold setState
        rw [hs', if_neg (by decide), if_pos (by decide), if_pos (by decide)]
      rw [if_neg hv]
      exact .start hset (if_neg hv)
  | start h _ => exact absurd (hs.symm.trans h) (by decide)
  | opened _ _ _ h => exact absurd (hs.symm.trans h) (by decide)
  | primed _ _ _ h => exact absurd (hs.symm.trans h) (by decide)
  | authed _ _ _ _ h => exact absurd (hs.symm.trans h) (by decide)

/-- **What a frame does to a run.** -/
theorem Progress.packet (hp : Progress m frames d) (h : d.packet m os f aes = some d') :
    Progress m (frames ++ [(os, f)]) d' := by
  have hinv : Inv d'.server := by
    obtain ⟨s, hs, hd'⟩ := Option.bind_eq_some_iff.mp h
    have hserver : d'.server = s := by
      split at hd'
      · rw [← Option.some.inj hd']
      split at hd'
      · cases hd'
      · rw [← Option.some.inj hd']
        rfl
    rw [hserver]
    exact inv_handlePacket hp.inv hs
  obtain rfl | ⟨o, hmin, hstate, ho, hprep, rfl⟩ := packet_cases h
  · exact ⟨hinv, hp.stage.mono (os, f), hp.writes⟩
  -- behind the name the session has begun already
  have hwrites : typeGetPrime ≤ toInt f.msgType → m.writable = true := by
    intro hle
    refine hp.writes fun hs => ?_
    rw [hstate hle] at hs
    rw [hs] at hle
    exact absurd hle (by decide)
  generalize htype : toInt f.msgType = type at hmin hstate ho hprep hinv hwrites ⊢
  suffices hsuff : Stage m.host (frames ++ [(os, f)]) (finish m.cfg (d.env m os f) type o).state
      (d.nextServer m os f type) (finish m.cfg (d.env m os f) type o).crypt.key ∧
      ((finish m.cfg (d.env m os f) type o).state ≠ typeSetUsername → m.writable = true) from
    ⟨hinv, hsuff.1, hsuff.2⟩
  obtain ⟨rfl, rfl⟩ | ⟨rfl, rfl⟩ | ⟨rfl, ho⟩ | ⟨rfl, ho⟩ | ⟨rfl, rfl⟩ | ⟨rfl, rfl⟩ := handle_cases hmin ho
  · obtain ⟨h1, h2⟩ := finish_stay m.cfg (d.env m os f) typePing
      (o := handlePing m.cfg (d.server.start typePing)) rfl
    rw [h1, h2]
    exact ⟨hp.stage.mono (os, f), hp.writes⟩
  · obtain ⟨p, hp'⟩ := hprep rfl
    exact stage_setUsername hp rfl htype hp'
  · exact ⟨stage_getPrime hp.stage (hstate (by decide)) ho htype, fun _ => hwrites (by decide)⟩
  · exact ⟨stage_sendA hp.stage (hstate (by decide)) ho htype, fun _ => hwrites (by decide)⟩
  · exact ⟨stage_sendAuth hp (hstate (by decide)) rfl htype, fun _ => hwrites (by decide)⟩
  · obtain ⟨hn, l, -, hadds⟩ := adds_handleSendCmd aes m.cfg (d.env m os f) (d.server.start typeSendCmd) f
    have hst : (handleSendCmd aes m.cfg (d.env m os f) (d.server.start typeSendCmd) f).server.state =
        d.server.state := by
      obtain ha | ⟨cmd, ha⟩ := hadds
      · exact ha.state
      · exact ha.state
    obtain ⟨h1, h2⟩ := finish_stay m.cfg (d.env m os f) typeSendCmd (hn.trans hst.symm)
    have hk := (handleSendCmd_system aes m.cfg (d.env m os f) (d.server.start typeSendCmd) f).1
    rw [h1, h2, hst, hk]
    exact ⟨hp.stage.mono (os, f), fun _ => hwrites (by decide)⟩

theorem Progress.run {l : List (Os × Frame)} (hp : Progress m frames d) (hr : runDaemon aes m d l = some d') :
    Progress m (frames ++ l) d' := by
  induction l generalizing d frames with
  | nil =>
    rw [List.append_nil]
    exact Option.some.inj hr ▸ hp
  | cons x l ih =>
    obtain ⟨d1, h1, h2⟩ := Option.bind_eq_some_iff.mp hr
    have hrest := ih (hp.packet h1) h2
    rwa [List.append_assoc] at hrest

theorem progress_init (m : Router) : Progress m [] Daemon.init :=
  ⟨inv_init, .start rfl rfl, fun h => absurd rfl h⟩

end

/-- **Who can have a command executed**, in any run: `password`, which is const, can be written, or no name of the file
gets anywhere; before the frame with the command there were, in this order, a name that the password file had with a
`$1$` password, the request after which the server made its secret, a number that it took, and one of the two digests
that only the session key gives; and the command was encrypted with that key. -/
theorem commands_keyed (aes : Cipher) (m : Router) (frames : List (Os × Frame)) (os : Os) (f : Frame) {d d' : Daemon}
    (hr : runDaemon aes m Daemon.init frames = some d) (hp : d.packet m os f aes = some d') {cmd : List UInt8}
    (hc : .system cmd ∈ newEvents d.server d'.server) : m.writable = true ∧
      ∃ l tried a r, Login.Proves l frames tried a r ∧
      d.server.crypt.key = (l.key a.2.number).take 16 ∧ toInt f.msgType = typeSendCmd ∧
      (cmdSize : Int) < (decryptMessage aes d.server.crypt f.msgLen f.data).ret ∧
      cmd = cmdOf (decryptMessage aes d.server.crypt f.msgLen f.data) := by
  have hprog := (progress_init m).run hr
  rw [List.nil_append] at hprog
  obtain rfl | ⟨o, hmin, hstate, ho, -, rfl⟩ := packet_cases hp
  · rw [newEvents_append (List.append_nil _).symm] at hc
    cases hc
  obtain ⟨l, hl, hcmd⟩ := events_finish hmin ho
  change _ ∈ newEvents d.server (finish m.cfg (d.env m os f) (toInt f.msgType) o) at hc
  rw [hl] at hc
  rcases List.mem_cons.mp hc with hc | hc
  · cases hc
  obtain ⟨htype, hret, rfl⟩ := hcmd cmd hc
  have hs : d.server.state = typeSendCmd := (hstate (by rw [htype]; decide)).trans htype
  refine ⟨hprog.writes (by rw [hs]; decide), ?_⟩
  cases hprog.stage with
  | authed l tried a r _ proves hk => exact ⟨l, tried, a, r, proves, hk, htype, hret, rfl⟩
  | start h _ => exact absurd (hs.symm.trans h) (by decide)
  | opened _ _ _ h => exact absurd (hs.symm.trans h) (by decide)
  | primed _ _ _ h => exact absurd (hs.symm.trans h) (by decide)
  | keyed _ _ _ _ _ _ h => exact absurd (hs.symm.trans h) (by decide)

end Ead
