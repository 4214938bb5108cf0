import Firmware.Ead.Server
import Firmware.Ead.Delivery
import Firmware.Lib.Cstr

/-!
# ead: the authentication gate

The log of the server says how far a client has come.

* `Opened`, `Primed`, `Keyed`, `Authed`   the steps of the protocol, in the log, all on one server
                                          of the SRP library that is still open;
* `Inv`                                   the state stands for the step that was reached;
* `system_authed`                         a command is executed after all of them only.
-/

set_option linter.unusedVariables false

namespace Ead
open Img Word

/-! ## what the log says -/

/-- `t` is not closed, and no user name is handled -/
def Quiet (t : Nat) (l : List Event) : Prop :=
  ∀ e ∈ l, e ≠ .closed (some t) ∧ ∀ ts, e ≠ .handled typeSetUsername ts

def Opened (t : Nat) (log : List Event) : Prop :=
  ∃ a ts b, log = a ++ .handled typeSetUsername ts :: b ∧ .opened (some t) ∈ b ∧ Quiet t b

def Primed (t : Nat) (log : List Event) : Prop :=
  ∃ a b, log = a ++ .handled typeGetPrime (some t) :: b ∧ Opened t a ∧ Quiet t b

def Event.isReply : Event → Bool
  | .sent _ _ _ => true
  | .encrypted _ _ _ _ => true
  | _ => false

/-- replies only -/
def Replies (l : List Event) : Prop := ∀ e ∈ l, e.isReply = true

/-- a frame with `A`, and the key for it -/
def Keyed (t : Nat) (log : List Event) : Prop :=
  ∃ a b c, log = a ++ .handled typeSendA (some t) :: (b ++ .gotKey (some t) :: c) ∧ Primed t a ∧
    Replies b ∧ Quiet t c

def Authed (t : Nat) (log : List Event) : Prop :=
  ∃ a b, log = a ++ .handled typeSendAuth (some t) :: .verified (some t) :: b ∧ Keyed t a ∧ Quiet t b

theorem Quiet.append {t : Nat} {a b : List Event} (ha : Quiet t a) (hb : Quiet t b) : Quiet t (a ++ b) :=
  fun e he => (List.mem_append.mp he).elim (ha e) (hb e)

theorem quiet_singleton {t : Nat} {e : Event} (hc : e ≠ .closed (some t))
    (hu : ∀ ts, e ≠ .handled typeSetUsername ts) : Quiet t [e] :=
  List.forall_mem_singleton.mpr ⟨hc, hu⟩

theorem Opened.append {t : Nat} {l m : List Event} (h : Opened t l) (hm : Quiet t m) :
    Opened t (l ++ m) := by
  obtain ⟨a, ts, b, rfl, ho, hq⟩ := h
  exact ⟨a, ts, b ++ m, by simp, List.mem_append_left _ ho, hq.append hm⟩

theorem Primed.append {t : Nat} {l m : List Event} (h : Primed t l) (hm : Quiet t m) :
    Primed t (l ++ m) := by
  obtain ⟨a, b, rfl, ho, hq⟩ := h
  exact ⟨a, b ++ m, by simp, ho, hq.append hm⟩

theorem Keyed.append {t : Nat} {l m : List Event} (h : Keyed t l) (hm : Quiet t m) :
    Keyed t (l ++ m) := by
  obtain ⟨a, b, c, rfl, ho, hs, hq⟩ := h
  exact ⟨a, b, c ++ m, by simp, ho, hs, hq.append hm⟩

theorem Authed.append {t : Nat} {l m : List Event} (h : Authed t l) (hm : Quiet t m) :
    Authed t (l ++ m) := by
  obtain ⟨a, b, rfl, ho, hq⟩ := h
  exact ⟨a, b ++ m, by simp, ho, hq.append hm⟩

/-- the step that a state stands for -/
def Reached (state : Int) (ts : Option Nat) (log : List Event) : Prop :=
  (state = typeSetUsername ∧ ts = none) ∨
  ∃ t, ts = some t ∧
    ((state = typeGetPrime ∧ Opened t log) ∨ (state = typeSendA ∧ Primed t log) ∨
      (state = typeSendAuth ∧ Keyed t log) ∨ (state = typeSendCmd ∧ Authed t log))

/-- every command in the log comes after an authentication -/
def Gated (log : List Event) : Prop :=
  ∀ a cmd b, log = a ++ .system cmd :: b → ∃ t, Authed t a

structure Inv (s : Server) : Prop where
  reached : Reached s.state s.ts s.log
  gated : Gated s.log
  fresh : ∀ t, s.ts = some t → t < s.opens

/-! ## what a handler adds to the log -/

/-- the handler moves neither the state nor the server; it appends `l` to the log -/
structure Adds (s s' : Server) (l : List Event) : Prop where
  state : s'.state = s.state
  ts : s'.ts = s.ts
  opens : s'.opens = s.opens
  log : s'.log = s.log ++ l

theorem Adds.refl (s : Server) : Adds s s [] := ⟨rfl, rfl, rfl, by simp⟩

theorem Adds.trans {s s' s'' : Server} {l l' : List Event} (h : Adds s s' l) (h' : Adds s' s'' l') :
    Adds s s'' (l ++ l') :=
  ⟨h'.state.trans h.state, h'.ts.trans h.ts, h'.opens.trans h.opens, by rw [h'.log, h.log, List.append_assoc]⟩

theorem adds_sendPacketClone (s : Server) (type : Int) :
    ∃ len data, Adds s (sendPacketClone s type) [.sent type len data] := ⟨_, _, rfl, rfl, rfl, rfl⟩

theorem Replies.ne {l : List Event} (h : Replies l) {e x : Event} (he : e ∈ l)
    (hx : x.isReply = false) : e ≠ x := by
  intro e'
  have hr := h e he
  rw [e', hx] at hr
  cases hr

theorem Replies.quiet {l : List Event} (h : Replies l) (t : Nat) : Quiet t l :=
  fun e he => ⟨h.ne he rfl, fun ts => h.ne he rfl⟩

theorem Replies.append {a b : List Event} (ha : Replies a) (hb : Replies b) : Replies (a ++ b) :=
  fun e he => (List.mem_append.mp he).elim (ha e) (hb e)

theorem replies_nil : Replies [] := nofun

theorem replies_sent (type : Int) (len : UInt32) (data : List UInt8) : Replies [.sent type len data] := by
  intro e he
  rw [List.mem_singleton.mp he]
  rfl

theorem adds_encryptReply (aes : Cipher) (s : Server) (done : UInt8) (data : List UInt8) :
    ∃ l, Replies l ∧ Adds s (encryptReply aes s done data) l := by
  refine ⟨_, ?_, rfl, rfl, rfl, rfl⟩
  intro e he
  rw [List.mem_singleton.mp he]
  rfl

theorem adds_sendData (aes : Cipher) (reads : List (List UInt8)) :
    ∀ s : Server, ∃ l, Replies l ∧ Adds s (reads.foldl (sendData aes) s) l := by
  induction reads with
  | nil => exact fun s => ⟨[], replies_nil, Adds.refl s⟩
  | cons bytes reads ih =>
    intro s
    obtain ⟨l, hl, h⟩ := ih (sendData aes s bytes)
    obtain ⟨len, data, h'⟩ :=
      adds_sendPacketClone (encryptReply aes s 0 (bytes.take 1024)) (typeSendCmd + 1)
    obtain ⟨l', hl', h''⟩ := adds_encryptReply aes s 0 (bytes.take 1024)
    exact ⟨_, (hl'.append (replies_sent _ len data)).append hl, (h''.trans h').trans h⟩

theorem adds_replyCmd (aes : Cipher) (env : Env) (s : Server) (stream : Bool) :
    ∃ l, Replies l ∧ Adds s (replyCmd aes env s stream).server l ∧
      (replyCmd aes env s stream).nstate = s.state := by
  unfold replyCmd
  obtain ⟨l, hl, h⟩ := adds_sendData aes env.reads s
  split
  · split
    · exact ⟨l, hl, h, h.state⟩
    · obtain ⟨l', hl', h'⟩ := adds_encryptReply aes (env.reads.foldl (sendData aes) s) 1 []
      exact ⟨l ++ l', hl.append hl', h.trans h', h.state⟩
  · obtain ⟨l', hl', h'⟩ := adds_encryptReply aes s 1 []
    exact ⟨l', hl', h', rfl⟩

/-- `handle_send_cmd` executes one command at most, before its replies -/
theorem adds_handleSendCmd (aes : Cipher) (cfg : Config) (env : Env) (s : Server) (f : Frame) :
    (handleSendCmd aes cfg env s f).nstate = s.state ∧
    ∃ l, Replies l ∧ (Adds s (handleSendCmd aes cfg env s f).server l ∨
      ∃ cmd, Adds s (handleSendCmd aes cfg env s f).server (.system cmd :: l)) := by
  have hstart : ∀ c cmd stream, ∃ l, Replies l ∧
      Adds s (replyCmd aes env ({ s with crypt := c }.emit (.system cmd)) stream).server
        (.system cmd :: l) ∧
      (replyCmd aes env ({ s with crypt := c }.emit (.system cmd)) stream).nstate = s.state := by
    intro c cmd stream
    obtain ⟨l, hl, h, hn⟩ := adds_replyCmd aes env ({ s with crypt := c }.emit (.system cmd)) stream
    have h0 : Adds s ({ s with crypt := c }.emit (.system cmd)) [.system cmd] := ⟨rfl, rfl, rfl, rfl⟩
    exact ⟨l, hl, h0.trans h, hn⟩
  have hnone : ∀ c, Adds s { s with crypt := c } [] := fun c => ⟨rfl, rfl, rfl, by simp⟩
  unfold handleSendCmd
  dsimp only
  split
  · exact ⟨rfl, [], replies_nil, Or.inl (hnone _)⟩
  split
  · split
    · exact ⟨rfl, [], replies_nil, Or.inl (hnone _)⟩
    · obtain ⟨l, hl, h, hn⟩ := hstart _ _ true
      exact ⟨hn, l, hl, Or.inr ⟨_, h⟩⟩
  split
  · split
    · exact ⟨rfl, [], replies_nil, Or.inl (hnone _)⟩
    · obtain ⟨l, hl, h, hn⟩ := hstart _ _ false
      exact ⟨hn, l, hl, Or.inr ⟨_, h⟩⟩
  · exact ⟨rfl, [], replies_nil, Or.inl (hnone _)⟩

/-! ## what a frame keeps -/

/-- nothing is executed, no server is closed, no user name is handled -/
def Calm (l : List Event) : Prop :=
  ∀ e ∈ l, (∀ cmd, e ≠ .system cmd) ∧ (∀ ts, e ≠ .closed ts) ∧ ∀ ts, e ≠ .handled typeSetUsername ts

theorem Calm.quiet {l : List Event} (h : Calm l) (t : Nat) : Quiet t l :=
  fun e he => ⟨(h e he).2.1 _, (h e he).2.2⟩

theorem Calm.append {a b : List Event} (ha : Calm a) (hb : Calm b) : Calm (a ++ b) :=
  fun e he => (List.mem_append.mp he).elim (ha e) (hb e)

theorem Replies.calm {l : List Event} (h : Replies l) : Calm l :=
  fun e he => ⟨fun cmd => h.ne he rfl, fun ts => h.ne he rfl, fun ts => h.ne he rfl⟩

theorem calm_handled {type : Int} (ts : Option Nat) (h : type ≠ typeSetUsername) :
    Calm [.handled type ts] := by
  intro e he
  rw [List.mem_singleton.mp he]
  exact ⟨nofun, nofun, fun ts' e' => h (Event.handled.inj e').1⟩

theorem Gated.append {l m : List Event} (h : Gated l) (hm : ∀ e ∈ m, ∀ cmd, e ≠ .system cmd) :
    Gated (l ++ m) := by
  intro a cmd b e
  obtain ⟨x, rfl, hx⟩ | ⟨x, rfl, hx⟩ := List.append_eq_append_iff.mp e
  · exact absurd rfl (hm (.system cmd) (by rw [hx]; simp) cmd)
  · cases x with
    | nil => exact absurd rfl (hm (.system cmd) (by rw [← List.nil_append m, ← hx]; simp) cmd)
    | cons y x =>
      obtain ⟨rfl, _⟩ := List.cons.inj hx
      exact h a cmd x rfl

theorem Gated.add {l : List Event} {x : Event} (h : Gated l) (hx : ∀ cmd, x ≠ .system cmd) :
    Gated (l ++ [x]) :=
  h.append (List.forall_mem_singleton.mpr hx)

/-- a command may be executed after an authentication -/
theorem Gated.system {l : List Event} {t : Nat} (h : Gated l) (ht : Authed t l) (cmd : List UInt8) :
    Gated (l ++ [.system cmd]) := by
  intro a cmd' b e
  obtain ⟨x, rfl, hx⟩ | ⟨x, rfl, hx⟩ := List.append_eq_append_iff.mp e
  · cases x with
    | nil => exact ⟨t, by rw [List.append_nil]; exact ht⟩
    | cons y x => exact absurd (congrArg List.length hx) (by simp)
  · cases x with
    | nil => exact ⟨t, by rw [List.append_nil] at ht; exact ht⟩
    | cons y x =>
      obtain ⟨rfl, _⟩ := List.cons.inj hx
      exact h a cmd' x rfl

theorem Reached.append {state : Int} {ts : Option Nat} {l m : List Event} (h : Reached state ts l)
    (hm : ∀ t, ts = some t → Quiet t m) : Reached state ts (l ++ m) := by
  obtain ⟨hs, ht⟩ | ⟨t, ht, h⟩ := h
  · exact Or.inl ⟨hs, ht⟩
  · refine Or.inr ⟨t, ht, ?_⟩
    obtain ⟨hs, h⟩ | ⟨hs, h⟩ | ⟨hs, h⟩ | ⟨hs, h⟩ := h
    · exact Or.inl ⟨hs, h.append (hm t ht)⟩
    · exact Or.inr (Or.inl ⟨hs, h.append (hm t ht)⟩)
    · exact Or.inr (Or.inr (Or.inl ⟨hs, h.append (hm t ht)⟩))
    · exact Or.inr (Or.inr (Or.inr ⟨hs, h.append (hm t ht)⟩))

theorem Inv.calm {s s' : Server} {l : List Event} (h : Inv s) (ha : Adds s s' l) (hl : Calm l) :
    Inv s' := by
  refine ⟨?_, ?_, ?_⟩
  · rw [ha.state, ha.ts, ha.log]
    exact h.reached.append fun t _ => hl.quiet t
  · rw [ha.log]
    exact h.gated.append fun e he => (hl e he).1
  · rw [ha.ts, ha.opens]
    exact h.fresh

/-- the server that a state from `GET_PRIME` on stands for -/
theorem Reached.ts_of_ge {state : Int} {ts : Option Nat} {l : List Event} (h : Reached state ts l)
    (hs : typeGetPrime ≤ state) : ∃ t, ts = some t := by
  obtain ⟨rfl, _⟩ | ⟨t, ht, _⟩ := h
  · exact absurd hs (by decide)
  · exact ⟨t, ht⟩

theorem Reached.ts_iff {state : Int} {ts : Option Nat} {l : List Event} (h : Reached state ts l) :
    ts.isSome = true ↔ typeGetPrime ≤ state := by
  obtain ⟨rfl, rfl⟩ | ⟨t, rfl, h⟩ := h
  · simp [typeSetUsername, typeGetPrime]
  · obtain ⟨rfl, _⟩ | ⟨rfl, _⟩ | ⟨rfl, _⟩ | ⟨rfl, _⟩ := h <;>
      simp [typeGetPrime, typeSendA, typeSendAuth, typeSendCmd]

theorem Reached.of_eq {state : Int} {t : Nat} {l : List Event} (h : Reached state (some t) l) :
    (state = typeSendA → Primed t l) ∧ (state = typeSendAuth → Keyed t l) ∧
      (state = typeSendCmd → Authed t l) ∧ (state = typeGetPrime → Opened t l) := by
  obtain ⟨_, h⟩ | ⟨t', ht, h⟩ := h
  · cases h
  · cases ht
    obtain ⟨rfl, h⟩ | ⟨rfl, h⟩ | ⟨rfl, h⟩ | ⟨rfl, h⟩ := h <;>
      simp [typeGetPrime, typeSendA, typeSendAuth, typeSendCmd, h]

/-- leaving the session: the server is closed -/
theorem setState_leave (cfg : Config) (env : Env) {s : Server} {log : List Event}
    (h : Reached s.state s.ts log) :
    ∃ l, setState cfg env s typeSetUsername
        = { s with state := typeSetUsername, ts := none, log := s.log ++ l } ∧
      ∀ e ∈ l, e = .closed s.ts ∧ ∃ t, s.ts = some t := by
  by_cases hs : s.state = typeSetUsername
  · have ht : s.ts = none := by
      obtain ⟨_, ht⟩ | ⟨t, _, h⟩ := h
      · exact ht
      · obtain ⟨h, _⟩ | ⟨h, _⟩ | ⟨h, _⟩ | ⟨h, _⟩ := h <;> rw [hs] at h <;> exact absurd h (by decide)
    refine ⟨[], ?_, nofun⟩
    unfold setState
    rw [if_pos hs, List.append_nil, ← hs, ← ht]
  · have hge : typeGetPrime ≤ s.state := by
      obtain ⟨h, _⟩ | ⟨t, _, h⟩ := h
      · exact absurd h hs
      · obtain ⟨h, _⟩ | ⟨h, _⟩ | ⟨h, _⟩ | ⟨h, _⟩ := h <;> rw [h] <;> decide
    have hlt : typeSetUsername < s.state := lt_of_lt_of_le (by decide) hge
    refine ⟨[.closed s.ts], ?_, fun e he => ⟨List.mem_singleton.mp he, h.ts_of_ge hge⟩⟩
    unfold setState
    rw [if_neg hs, if_pos hlt, if_pos ⟨by decide, hge⟩]
    rfl

/-! ## the handlers, one by one -/

section
variable {aes : Cipher} {cfg : Config} {env : Env} {s : Server} {f : Frame}

/-- the server when the handler of a frame is called -/
def Server.start (s : Server) (type : Int) : Server := { s with msgLen := 0 }.emit (.handled type s.ts)

theorem adds_start (s : Server) (type : Int) : Adds s (s.start type) [.handled type s.ts] :=
  ⟨rfl, rfl, rfl, rfl⟩

theorem finish_eq (cfg : Config) (env : Env) (type : Int) (o : Outcome) :
    ∃ s l, Replies l ∧ Adds o.server s l ∧ finish cfg env type o = setState cfg env s o.nstate := by
  unfold finish
  cases o.reply with
  | false => exact ⟨_, [], replies_nil, Adds.refl _, rfl⟩
  | true =>
    obtain ⟨len, data, h⟩ := adds_sendPacketClone o.server (type + 1)
    exact ⟨_, _, replies_sent _ len data, h, rfl⟩

theorem setState_same {nstate : Int} (h : s.state = nstate) : setState cfg env s nstate = s := by
  unfold setState
  rw [if_pos h]

/-- a handler that stays in its state -/
theorem Inv.stay {type : Int} {o : Outcome} {l : List Event} (h : Inv s) (ha : Adds s o.server l)
    (hl : Calm l) (hn : o.nstate = s.state) : Inv (finish cfg env type o) := by
  obtain ⟨s', l', hr, h', he⟩ := finish_eq cfg env type o
  have h'' := ha.trans h'
  rw [he, setState_same (h''.state.trans hn.symm)]
  exact h.calm h'' (hl.append hr.calm)

theorem inv_ping (h : Inv s) : Inv (finish cfg env typePing (handlePing cfg (s.start typePing))) := by
  refine h.stay (l := [.handled typePing s.ts]) ⟨rfl, rfl, rfl, rfl⟩ (calm_handled _ (by decide)) rfl

/-- `handle_set_username` closes the server of the session before -/
theorem handleSetUsername_eq (cfg : Config) (env : Env) (f : Frame) {log : List Event}
    (h : Reached s.state s.ts log) :
    (handleSetUsername cfg env s f).nstate = typeGetPrime ∧
    (handleSetUsername cfg env s f).server.state = typeSetUsername ∧
    (handleSetUsername cfg env s f).server.ts = none ∧
    (handleSetUsername cfg env s f).server.opens = s.opens ∧
    ∃ l, (handleSetUsername cfg env s f).server.log = s.log ++ l ∧
      ∀ e ∈ l, e = .closed s.ts ∧ ∃ t, s.ts = some t := by
  obtain ⟨l, hset, hc⟩ := setState_leave cfg env h
  unfold handleSetUsername
  simp only [hset]
  exact ⟨trivial, trivial, trivial, trivial, l, rfl, hc⟩

/-- after a user name: a new server, or none -/
theorem inv_setUsername (h : Inv s) :
    Inv (finish cfg env typeSetUsername (handleSetUsername cfg env (s.start typeSetUsername) f)) := by
  obtain ⟨hn, hst, hts, hop, l, hlog, hc⟩ := handleSetUsername_eq cfg env f
    (s := s.start typeSetUsername) h.reached
  obtain ⟨s', l', hl', ha, he⟩ := finish_eq cfg env typeSetUsername
    (handleSetUsername cfg env (s.start typeSetUsername) f)
  have hlog' : s'.log = s.log ++ .handled typeSetUsername s.ts :: (l ++ l') := by
    rw [ha.log, hlog, List.append_assoc]
    exact List.append_assoc s.log [.handled typeSetUsername s.ts] (l ++ l')
  have hg : Gated s'.log := by
    rw [hlog']
    refine h.gated.append fun e he cmd => ?_
    rcases List.mem_cons.mp he with rfl | he
    · exact nofun
    rcases List.mem_append.mp he with he | he
    · rw [(hc e he).1]
      exact nofun
    · exact (hl'.calm e he).1 cmd
  have hclear : Inv s' := ⟨Or.inl ⟨ha.state.trans hst, ha.ts.trans hts⟩, hg, by
    rw [ha.ts, hts]
    exact nofun⟩
  rw [he, hn]
  unfold setState
  rw [ha.state.trans hst, if_neg (by decide), if_neg (by decide), if_pos rfl]
  split
  · exact hclear
  split
  · exact ⟨Or.inl ⟨rfl, rfl⟩, hg, nofun⟩
  · have ho : Opened s'.opens (s'.log ++ [.opened (some s'.opens)]) := by
      refine ⟨s.log, s.ts, l ++ l' ++ [.opened (some s'.opens)], by rw [hlog']; simp, by simp, ?_⟩
      refine Quiet.append (Quiet.append ?_ (hl'.quiet _)) (quiet_singleton nofun nofun)
      intro e he
      obtain ⟨rfl, t, ht⟩ := hc e he
      have ht : s.ts = some t := ht
      have hlt := h.fresh t ht
      have hop' : s'.opens = s.opens := ha.opens.trans hop
      refine ⟨fun e' => ?_, nofun⟩
      have := Option.some.inj (ht.symm.trans (Event.closed.inj e'))
      omega
    refine ⟨Or.inr ⟨s'.opens, rfl, Or.inl ⟨rfl, ho⟩⟩, hg.add nofun, ?_⟩
    intro t ht
    rw [← Option.some.inj ht]
    exact Nat.lt_succ_self _

theorem handleGetPrime_adds {o : Outcome} (h : handleGetPrime env s = some o) :
    (∃ t, s.ts = some t) ∧ Adds s o.server [] ∧ o.nstate = typeSendA := by
  obtain ⟨t, ht, rfl⟩ := Option.map_eq_some_iff.mp h
  exact ⟨⟨t, ht⟩, ⟨rfl, rfl, rfl, (List.append_nil _).symm⟩, rfl⟩

theorem inv_getPrime {o : Outcome} (h : Inv s) (hs : s.state = typeGetPrime)
    (ho : handleGetPrime env (s.start typeGetPrime) = some o) : Inv (finish cfg env typeGetPrime o) := by
  obtain ⟨⟨t, ht⟩, ha, hn⟩ := handleGetPrime_adds ho
  have ht : s.ts = some t := ht
  obtain ⟨s', l, hl, ha', he⟩ := finish_eq cfg env typeGetPrime o
  have ha'' := (adds_start s typeGetPrime).trans (ha.trans ha')
  have hi := h.calm ha'' ((calm_handled _ (by decide)).append hl.calm)
  have hset : setState cfg env s' typeSendA = { s' with b := env.servergenexp, state := typeSendA } := by
    unfold setState
    rw [ha''.state.trans hs, if_neg (by decide), if_neg (by decide), if_neg (by decide), if_pos rfl]
  have hp : Primed t s'.log := by
    refine ⟨s.log, l, ?_, (ht ▸ h.reached).of_eq.2.2.2 hs, hl.quiet t⟩
    rw [ha''.log, ht]
    rfl
  rw [he, hn, hset]
  exact ⟨Or.inr ⟨t, ha''.ts.trans ht, Or.inr (Or.inl ⟨rfl, hp⟩)⟩, hi.gated, hi.fresh⟩

theorem handleSendA_adds {o : Outcome} (h : handleSendA s f = some o) :
    Adds s o.server [] ∧ (o.nstate = s.state ∨ o.nstate = typeSendAuth) := by
  unfold handleSendA at h
  dsimp only at h
  split at h
  · cases h
    exact ⟨Adds.refl s, Or.inl rfl⟩
  split at h
  · cases h
  · obtain ⟨b, _, rfl⟩ := Option.map_eq_some_iff.mp h
    exact ⟨⟨rfl, rfl, rfl, (List.append_nil _).symm⟩, Or.inr rfl⟩

/-- the key is asked for on the way to `SEND_AUTH` -/
theorem setState_sendAuth (hs : s.state = typeSendA) :
    setState cfg env s typeSendAuth = env.servergetkey.elim s fun skey =>
      { s.emit (.gotKey s.ts) with crypt := setKey cfg.big skey s.crypt, state := typeSendAuth } := by
  unfold setState
  rw [hs, if_neg (by decide), if_neg (by decide), if_neg (by decide), if_neg (by decide), if_pos rfl]
  cases env.servergetkey with
  | none => rfl
  | some skey => rfl

theorem inv_sendA {o : Outcome} (h : Inv s) (hs : s.state = typeSendA)
    (ho : handleSendA (s.start typeSendA) f = some o) : Inv (finish cfg env typeSendA o) := by
  obtain ⟨ha, hn⟩ := handleSendA_adds ho
  have hcalm : Calm [.handled typeSendA s.ts] := calm_handled _ (by decide)
  obtain hn | hn := hn
  · exact h.stay ((adds_start s typeSendA).trans ha) hcalm hn
  obtain ⟨s', l, hl, ha', he⟩ := finish_eq cfg env typeSendA o
  have ha'' := (adds_start s typeSendA).trans (ha.trans ha')
  have hi := h.calm ha'' (hcalm.append hl.calm)
  rw [he, hn, setState_sendAuth (ha''.state.trans hs)]
  cases env.servergetkey with
  | none => exact hi
  | some skey =>
    obtain ⟨t, ht⟩ := h.reached.ts_of_ge (by rw [hs]; decide)
    have hk : Keyed t (s'.log ++ [.gotKey s'.ts]) := by
      refine ⟨s.log, l, [], ?_, (ht ▸ h.reached).of_eq.1 hs, hl, nofun⟩
      rw [ha''.log, ha''.ts, ht]
      simp
    have hg : Gated (s'.log ++ [.gotKey s'.ts]) := hi.gated.add nofun
    exact ⟨Or.inr ⟨t, ha''.ts.trans ht, Or.inr (Or.inr (Or.inl ⟨rfl, hk⟩))⟩, hg, hi.fresh⟩

theorem handleSendAuth_adds (env : Env) (s : Server) :
    (Adds s (handleSendAuth env s).server [] ∧ (handleSendAuth env s).nstate = typeSetUsername) ∨
    (Adds s (handleSendAuth env s).server [.verified s.ts] ∧
      (handleSendAuth env s).nstate = typeSendCmd) := by
  unfold handleSendAuth
  split
  · exact Or.inl ⟨Adds.refl s, rfl⟩
  · exact Or.inr ⟨⟨rfl, rfl, rfl, rfl⟩, rfl⟩

theorem inv_sendAuth (h : Inv s) (hs : s.state = typeSendAuth) :
    Inv (finish cfg env typeSendAuth (handleSendAuth env (s.start typeSendAuth))) := by
  obtain ⟨t, ht⟩ := h.reached.ts_of_ge (by rw [hs]; decide)
  have hcalm : Calm [.handled typeSendAuth s.ts] := calm_handled _ (by decide)
  obtain ⟨s', l, hl, ha', he⟩ := finish_eq cfg env typeSendAuth (handleSendAuth env (s.start typeSendAuth))
  obtain ⟨ha, hn⟩ | ⟨ha, hn⟩ := handleSendAuth_adds env (s.start typeSendAuth)
  · have hi := h.calm ((adds_start s typeSendAuth).trans (ha.trans ha')) (hcalm.append hl.calm)
    obtain ⟨l', hset, hc⟩ := setState_leave cfg env hi.reached
    rw [he, hn, hset]
    refine ⟨Or.inl ⟨rfl, rfl⟩, hi.gated.append ?_, nofun⟩
    intro e he cmd
    rw [(hc e he).1]
    exact nofun
  · have ha'' := (adds_start s typeSendAuth).trans (ha.trans ha')
    have hv : Calm [.verified s.ts] := List.forall_mem_singleton.mpr ⟨nofun, nofun, nofun⟩
    have hi := h.calm ha'' (hcalm.append (hv.append hl.calm))
    have hset : setState cfg env s' typeSendCmd = { s' with state := typeSendCmd } := by
      unfold setState
      rw [ha''.state.trans hs, if_neg (by decide), if_neg (by decide), if_neg (by decide),
        if_neg (by decide), if_neg (by decide)]
    have hk : Authed t s'.log := by
      refine ⟨s.log, l, ?_, (ht ▸ h.reached).of_eq.2.1 hs, hl.quiet t⟩
      rw [ha''.log, show (s.start typeSendAuth).ts = some t from ht, ht]
      rfl
    rw [he, hn, hset]
    exact ⟨Or.inr ⟨t, ha''.ts.trans ht, Or.inr (Or.inr (Or.inr ⟨rfl, hk⟩))⟩, hi.gated, hi.fresh⟩

theorem inv_sendCmd (h : Inv s) (hs : s.state = typeSendCmd) :
    Inv (finish cfg env typeSendCmd (handleSendCmd aes cfg env (s.start typeSendCmd) f)) := by
  have hcalm : Calm [.handled typeSendCmd s.ts] := calm_handled _ (by decide)
  obtain ⟨hn, l, hl, ha | ⟨cmd, ha⟩⟩ := adds_handleSendCmd aes cfg env (s.start typeSendCmd) f
  · exact h.stay ((adds_start s typeSendCmd).trans ha) (hcalm.append hl.calm) hn
  · have h1 := h.calm (adds_start s typeSendCmd) hcalm
    obtain ⟨t, ht⟩ := h1.reached.ts_of_ge (by rw [show (s.start typeSendCmd).state = _ from hs]; decide)
    -- the command is executed in the state after `handled`
    have h2 : Inv ((s.start typeSendCmd).emit (.system cmd)) :=
      ⟨h1.reached.append fun t _ => quiet_singleton nofun nofun,
        h1.gated.system ((ht ▸ h1.reached).of_eq.2.2.1 hs) cmd, h1.fresh⟩
    refine h2.stay (l := l) ⟨ha.state, ha.ts, ha.opens, ?_⟩ hl.calm hn
    exact ha.log.trans (List.append_assoc (s.start typeSendCmd).log [.system cmd] l).symm

/-! ## runs -/

/-- a guard leaves the server as it is -/
theorem of_guard {c : Prop} [Decidable c] {s s' : Server} {o : Option Server}
    (h : (if c then some s else o) = some s') : s' = s ∨ ¬ c ∧ o = some s' := by
  by_cases hc : c
  · rw [if_pos hc] at h
    exact Or.inl (Option.some.inj h).symm
  · rw [if_neg hc] at h
    exact Or.inr ⟨hc, h⟩

theorem parseMessage_cases {s' : Server} (h : parseMessage aes cfg env s f = some s') :
    s' = s ∨ ∃ type o, type = toInt f.msgType ∧ (typeGetPrime ≤ type → s.state = type) ∧
      minLen type ≠ none ∧
      handle aes cfg env (s.start type) f type = some o ∧ s' = finish cfg env type o := by
  unfold parseMessage at h
  dsimp only at h
  obtain rfl | ⟨hstate, h⟩ := of_guard h
  · exact Or.inl rfl
  obtain rfl | ⟨-, h⟩ := of_guard h
  · exact Or.inl rfl
  split at h
  · exact Or.inl (Option.some.inj h).symm
  next k hk =>
  obtain rfl | ⟨-, h⟩ := of_guard h
  · exact Or.inl rfl
  · obtain ⟨o, ho, rfl⟩ := Option.map_eq_some_iff.mp h
    refine Or.inr ⟨_, o, rfl, fun hge => ?_, by rw [hk]; exact nofun, ho, rfl⟩
    by_contra hne
    exact hstate ⟨hge, hne⟩

theorem handlePacket_cases {s' : Server} (h : handlePacket aes cfg env s f = some s') :
    s' = s ∨ parseMessage aes cfg env s f = some s' := by
  unfold handlePacket at h
  iterate 8
    obtain rfl | ⟨-, h⟩ := of_guard h
    · exact Or.inl rfl
  exact Or.inr h

/-- the handler of a type that has a length -/
theorem handle_cases {type : Int} {o : Outcome} (hmin : minLen type ≠ none)
    (h : handle aes cfg env s f type = some o) :
    (type = typePing ∧ o = handlePing cfg s) ∨
    (type = typeSetUsername ∧ o = handleSetUsername cfg env s f) ∨
    (type = typeGetPrime ∧ handleGetPrime env s = some o) ∨
    (type = typeSendA ∧ handleSendA s f = some o) ∨
    (type = typeSendAuth ∧ o = handleSendAuth env s) ∨
    (type = typeSendCmd ∧ o = handleSendCmd aes cfg env s f) := by
  unfold handle at h
  by_cases h1 : type = typePing
  · rw [if_pos h1] at h
    exact .inl ⟨h1, (Option.some.inj h).symm⟩
  rw [if_neg h1] at h
  by_cases h2 : type = typeSetUsername
  · rw [if_pos h2] at h
    exact .inr (.inl ⟨h2, (Option.some.inj h).symm⟩)
  rw [if_neg h2] at h
  by_cases h3 : type = typeGetPrime
  · rw [if_pos h3] at h
    exact .inr (.inr (.inl ⟨h3, h⟩))
  rw [if_neg h3] at h
  by_cases h4 : type = typeSendA
  · rw [if_pos h4] at h
    exact .inr (.inr (.inr (.inl ⟨h4, h⟩)))
  rw [if_neg h4] at h
  by_cases h5 : type = typeSendAuth
  · rw [if_pos h5] at h
    exact .inr (.inr (.inr (.inr (.inl ⟨h5, (Option.some.inj h).symm⟩))))
  rw [if_neg h5] at h
  have h6 : type = typeSendCmd := by
    by_contra h6
    refine hmin ?_
    unfold minLen
    rw [if_neg h1, if_neg h2, if_neg h3, if_neg h4, if_neg h5, if_neg h6]
  exact .inr (.inr (.inr (.inr (.inr ⟨h6, (Option.some.inj h).symm⟩))))

theorem inv_handlePacket {s' : Server} (h : Inv s) (hp : handlePacket aes cfg env s f = some s') :
    Inv s' := by
  obtain rfl | hp := handlePacket_cases hp
  · exact h
  obtain rfl | ⟨type, o, -, hstate, hmin, ho, rfl⟩ := parseMessage_cases hp
  · exact h
  obtain ⟨rfl, rfl⟩ | ⟨rfl, rfl⟩ | ⟨rfl, ho⟩ | ⟨rfl, ho⟩ | ⟨rfl, rfl⟩ | ⟨rfl, rfl⟩ := handle_cases hmin ho
  · exact inv_ping h
  · exact inv_setUsername h
  · exact inv_getPrime h (hstate (by decide)) ho
  · exact inv_sendA h (hstate (by decide)) ho
  · exact inv_sendAuth h (hstate (by decide))
  · exact inv_sendCmd h (hstate (by decide))

theorem inv_init : Inv Server.init :=
  ⟨Or.inl ⟨rfl, rfl⟩, fun a cmd b e => absurd (congrArg List.length e) (by simp [Server.init]), nofun⟩

theorem inv_runFrames {l : List (Env × Frame)} {s' : Server} (h : Inv s)
    (hr : runFrames aes cfg s l = some s') : Inv s' := by
  induction l generalizing s with
  | nil => exact Option.some.inj hr ▸ h
  | cons x l ih =>
    obtain ⟨s1, h1, h2⟩ := Option.bind_eq_some_iff.mp hr
    exact ih (inv_handlePacket h h1) h2

end

theorem system_authed (aes : Cipher) (cfg : Config) (frames : List (Env × Frame)) (s : Server)
    (h : runFrames aes cfg Server.init frames = some s) :
    (s.ts.isSome = true ↔ typeGetPrime ≤ s.state) ∧
    ∀ a cmd b, s.log = a ++ .system cmd :: b → ∃ t, Authed t a := by
  have hi := inv_runFrames inv_init h
  exact ⟨hi.reached.ts_iff, hi.gated⟩

/-- a frame to the node 0xffff and the instance 0 -/
def frameOf (type : UInt32) (data : List UInt8) : Frame where
  len := UInt32.ofNat (packetSize + data.length)
  bytes := List.replicate 6 0xff ++ (List.replicate 6 0 ++ ([8, 0] ++ (List.replicate 9 0 ++ ([17] ++
    (List.replicate 12 0 ++ (put16 true 56026 ++ (List.replicate 4 0 ++ (put32 true 3671771902 ++
    (put32 true (UInt32.ofNat data.length) ++ (put32 true type ++ ([0xff, 0xff] ++
    (List.replicate 6 0 ++ data))))))))))))

/-- every call succeeds; the session key is zero, and a command is silent until its timeout -/
def envOk : Env :=
  ⟨true, true, 0, List.replicate 10 1, List.replicate 32 0, some (List.replicate 128 2),
    some (List.replicate 40 0), true, List.replicate 20 3, true, true, [], true⟩

/-- the whole protocol, up to the command `id` -/
def sessionFrames : List (Env × Frame) :=
  [(envOk, frameOf 2 (CStr.ascii ['r', 'o', 'o', 't'] ++ List.replicate 28 0)), (envOk, frameOf 4 []),
   (envOk, frameOf 6 (0 :: List.replicate 128 5)), (envOk, frameOf 8 (List.replicate 20 7)),
   (envOk, frameOf 10
    [62, 28, 126, 250, 234, 129, 236, 167, 6, 128, 206, 50, 136, 97, 138, 125,
     241, 1, 181, 230, 204, 169, 168, 41, 46, 132, 91, 55, 146, 174, 102, 156,
     102, 233, 75, 212, 239, 138, 44, 59, 136, 76, 250, 89, 202, 52, 43, 46,
     102, 233, 75, 212, 239, 138, 44, 59, 136, 76, 250, 89, 202, 52, 43, 46])]

theorem system_authed_id : ∃ s t a b,
    runFrames aesFirst ⟨1, 0, [], true, true⟩ Server.init sessionFrames = some s ∧
    s.ts = some 0 ∧ s.log = a ++ .system (CStr.ascii ['i', 'd']) :: b ∧ Authed t a := by
  have hrun : (runFrames aesFirst ⟨1, 0, [], true, true⟩ Server.init sessionFrames).map
      (fun s => (s.ts, s.log.drop 12)) = some (some 0, [.system (CStr.ascii ['i', 'd'])]) := by
    decide +kernel
  obtain ⟨s, h, hs⟩ := Option.map_eq_some_iff.mp hrun
  obtain ⟨hts, hlog⟩ := Prod.mk.inj hs
  have he : s.log = s.log.take 12 ++ .system (CStr.ascii ['i', 'd']) :: [] := by
    rw [← hlog, List.take_append_drop]
  obtain ⟨t, ht⟩ := (system_authed _ _ _ s h).2 _ _ _ he
  exact ⟨s, t, _, _, h, hts, he, ht⟩

end Ead
