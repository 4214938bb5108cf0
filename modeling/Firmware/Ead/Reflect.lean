import Firmware.Ead.Session

/-!
# ead: where the commands come from

* `step_made`        any body of the session whose IV is in the window is executed as a command, if
                     its first byte is 0 and more than two bytes follow;
* `executed_origin`  what is executed is a command of the client, or output that the server sent
                     as a reply while it was ahead of what it received;
* `ClientOnly`       the commands are the client's. They are not: `not_clientOnly`.
-/

set_option linter.unusedVariables false

namespace Ead
open Img Word

/-! ## a body that is handed to the server -/

theorem getD_of_slice {m l : List UInt8} {off n : Nat} {x y : UInt8} (h : slice m off n = x :: l) :
    m.getD off y = x := by
  have h0 := congrArg List.head? h
  unfold slice at h0
  rw [List.head?_take, List.head?_drop] at h0
  split at h0
  · cases h0
  · rw [List.getD_eq_getElem?_getD, h0]
    rfl

section
variable {aes : Cipher} {cfg : Config} {env : Env} {w : World} {key : List UInt8}

theorem frameOf_msgLen (type : UInt32) (data : List UInt8) :
    (frameOf type data).msgLen = UInt32.ofNat data.length := get32_put32 true _

theorem frameOf_msgType (type : UInt32) (data : List UInt8) : (frameOf type data).msgType = type :=
  get32_put32 true _

theorem frameOf_data (type : UInt32) (data : List UInt8) : (frameOf type data).data = data := rfl

/-- a frame with the right header reaches its handler -/
theorem handlePacket_frameOf {s : Server} {data : List UInt8} (hs : s.state = typeSendCmd)
    (hc : cfg.instanceId = 0) (hl : cmdSize + encSize ≤ data.length) (hl' : data.length < 2 ^ 17) :
    handlePacket aes cfg env s (frameOf 10 data) = some (finish cfg env typeSendCmd
      (handleSendCmd aes cfg env (s.start typeSendCmd) (frameOf 10 data))) := by
  have hlen : (frameOf 10 data).len.toNat = packetSize + data.length := by
    show (UInt32.ofNat (packetSize + data.length)).toNat = _
    rw [UInt32.toNat_ofNat', Nat.mod_eq_of_lt]
    simp only [packetSize]
    omega
  have hmsg : (frameOf 10 data).msgLen.toNat = data.length := by
    rw [frameOf_msgLen, UInt32.toNat_ofNat', Nat.mod_eq_of_lt (by omega)]
  have htotal : (frameOf 10 data).total cfg = packetSize + data.length := by
    unfold Frame.total
    simp only [hmsg]
    split
    · rfl
    · rw [Nat.mod_eq_of_lt]
      simp only [packetSize]
      omega
  have htype : toInt (frameOf 10 data).msgType = typeSendCmd := by
    rw [frameOf_msgType]
    rfl
  have hint : toInt (frameOf 10 data).len = packetSize + data.length := by
    unfold toInt
    rw [hlen, if_pos (by simp only [packetSize]; omega)]
    exact Nat.cast_add _ _
  have hether : (frameOf 10 data).field 12 2 = 0x0800 := rfl
  have hdhost : slice (frameOf 10 data).bytes 0 6 = List.replicate 6 0xff := rfl
  have hproto : (frameOf 10 data).field 23 1 = 17 := rfl
  have hport : (frameOf 10 data).field 36 2 = eadPort := rfl
  have hmagic : (frameOf 10 data).field 42 4 = eadMagic := rfl
  have hnid : (frameOf 10 data).field 54 2 = 0xffff := rfl
  have hsid : (frameOf 10 data).field 56 2 = 0 := rfl
  unfold handlePacket
  rw [if_neg (by omega), if_neg (not_not.mpr hether), if_neg (not_not.mpr hdhost),
    if_neg (not_not.mpr hproto), if_neg (not_not.mpr hport), if_neg (not_not.mpr hmagic),
    if_neg (by omega), if_neg (fun h => h.1 hnid)]
  unfold parseMessage
  simp only [htype]
  rw [if_neg (fun h => h.2 hs), if_neg (fun h => h.2 (by rw [hsid, hc]; rfl))]
  show (if _ then _ else _) = _
  rw [if_neg (by rw [hint]; omega)]
  rfl

/-- the server that executes a body, and after its replies -/
def World.running (w : World) (m : Made) : Server :=
  { w.server.start typeSendCmd with crypt := { w.server.crypt with rxIv := m.iv } }.emit (.system m.command)

def World.execute (aes : Cipher) (cfg : Config) (env : Env) (w : World) (m : Made) : Server :=
  finish cfg env typeSendCmd (replyCmd aes env (w.running m) true)

/-- a body that was made, with an IV in the window and the type of a command, is executed -/
theorem handlePacket_made (hi : aes.Inverts) (h : w.Inv aes key) (hc : cfg.instanceId = 0)
    (hpipe : env.pipe = true) (hfork : env.fork = true) {m : Made} (hm : m ∈ w.made)
    {data : List UInt8} (hd : m.data = 0 :: data) (hdl : cmdSize ≤ data.length)
    (h1 : w.server.crypt.rxIv < m.iv) (h2 : m.iv ≤ w.server.crypt.rxIv + maxIvIncr) :
    handlePacket aes cfg env w.server (frameOf 10 m.body) = some (w.execute aes cfg env m) := by
  have hok := h.made m hm
  obtain ⟨c', buf, hk, hbuf, hiv, hbody, hdata⟩ := hok.made
  have hb := encLen_bounds m.data.length
  have hl : m.body.length = encLen m.data.length := by rw [hbody, encrypt_length hbuf]
  have hdec := decryptMessage_encryptMessage hi (hk.trans h.serverKey.symm) hbuf hok.short []
    (checkRxIv_eq_some.mpr ⟨hiv ▸ h1, hiv ▸ h2, rfl⟩)
  rw [List.append_nil, List.append_nil, ← hbody, ← hiv] at hdec
  have hslice := data_sealTail m.iv hbuf []
  rw [List.append_nil, hdata] at hslice
  have hlen : UInt32.ofNat m.body.length = UInt32.ofNat (encLen m.data.length) := by rw [hl]
  have htype : (List.replicate 20 0 ++ sealTail m.iv buf m.data.length).getD encSize 0 = 0 := by
    rw [hd, List.length_cons] at hslice ⊢
    exact getD_of_slice hslice
  have hb25 : cmdSize + encSize ≤ m.body.length := by
    rw [hl]
    rw [hd, List.length_cons] at hb ⊢
    omega
  have hb17 : m.body.length < 2 ^ 17 := by
    have := hok.short
    simp only [encSize] at hb
    omega
  rw [handlePacket_frameOf h.state hc hb25 hb17]
  unfold World.execute World.running
  refine congrArg (fun o => some (finish cfg env typeSendCmd o)) ?_
  unfold handleSendCmd
  rw [frameOf_msgLen, frameOf_data, hlen]
  dsimp only
  rw [show (w.server.start typeSendCmd).crypt = w.server.crypt from rfl, hdec]
  dsimp only
  rw [if_neg (by rw [hd, List.length_cons]; push_cast; omega), htype,
    if_pos (by cases cfg.big <;> rfl), if_neg (by simp [hpipe, hfork]), cmdOf_made rfl hslice]

theorem execute_state (aes : Cipher) (cfg : Config) (env : Env) (hs : w.server.state = typeSendCmd)
    (m : Made) : (w.execute aes cfg env m).state = typeSendCmd := by
  obtain ⟨l, _, ha, hn⟩ := adds_replyCmd aes env (w.running m) true
  obtain ⟨s', l', _, ha', he⟩ := finish_eq cfg env typeSendCmd (replyCmd aes env (w.running m) true)
  have hst := ha'.state.trans ha.state
  unfold World.execute
  rw [he, setState_same (hst.trans hn.symm), hst]
  exact hs

theorem execute_executes (aes : Cipher) (cfg : Config) (env : Env)
    (h : w.server.pktbuf.length = pktbufSize) (m : Made) :
    Executes w (w.serve (w.execute aes cfg env m)) m.command := by
  have h0 : Sends aes w.server (w.running m) [.handled typeSendCmd w.server.ts, .system m.command] :=
    .of_quiet (by simp [World.running, Server.start, Server.emit]) rfl rfl rfl rfl
  obtain ⟨l, _, h1⟩ := sends_replyCmd aes env true (h0.room.trans h)
  obtain ⟨_, _, ha, hn⟩ := adds_replyCmd aes env (w.running m) true
  obtain ⟨l', _, h2⟩ := (h0.trans h1).finish cfg env typeSendCmd (hn.trans ha.state.symm)
  have he : newEvents w.server (w.execute aes cfg env m) = _ := newEvents_eq h2
  show Event.system m.command ∈ newEvents w.server (w.execute aes cfg env m)
  rw [he]
  simp

theorem step_made (hi : aes.Inverts) (h : w.Inv aes key) (hc : cfg.instanceId = 0)
    (hpipe : env.pipe = true) (hfork : env.fork = true) {m : Made} (hm : m ∈ w.made)
    {data : List UInt8} (hd : m.data = 0 :: data) (hdl : cmdSize ≤ data.length)
    (h1 : w.server.crypt.rxIv < m.iv) (h2 : m.iv ≤ w.server.crypt.rxIv + maxIvIncr) :
    Step aes cfg w (w.serve (w.execute aes cfg env m)) := by
  refine .deliver w env (frameOf 10 m.body) _
    (handlePacket_made hi h hc hpipe hfork hm hd hdl h1 h2) (fun _ _ => ⟨m, hm, ?_, ?_⟩)
    (execute_state aes cfg env h.state m)
  all_goals
    have hok := h.made m hm
    obtain ⟨c, buf, _, hbuf, _, hbody, _⟩ := hok.made
    have hl : m.body.length = encLen m.data.length := by rw [hbody, encrypt_length hbuf]
  · rw [frameOf_msgLen, hl, hok.len]
  · rw [frameOf_msgLen, hl, encLen_toNat hok.short, ← hl, frameOf_data, List.take_length]

theorem origin_of_madeOf {l : List Event} {m : Made} (h : m ∈ l.filterMap madeOf) : m.origin = .server := by
  obtain ⟨e, _, he⟩ := List.mem_filterMap.mp h
  cases e <;> cases he
  rfl

end

/-! ## the commands of a session -/

/-- **Executed commands**: what is executed was made in the session; it is a command of the client,
or output of a command that the server sent, and then the server is ahead of what it received. -/
theorem executed_origin {aes : Cipher} (hi : aes.Inverts) {cfg : Config} {skey : List UInt8}
    {w₀ w w' : World} {cmd : List UInt8} (h₀ : Start skey w₀)
    (hr : Relation.ReflTransGen (Step aes cfg) w₀ w) (hs : Step aes cfg w w') (hx : Executes w w' cmd) :
    ∃ m ∈ w.made, m.command = cmd ∧ w.server.crypt.rxIv < m.iv ∧
      m.iv ≤ w.server.crypt.rxIv + maxIvIncr ∧
      ((∃ command, m.origin = .client command ∧ (command.length < 1024 → cmd = command.bytes)) ∨
       (m.origin = .server ∧ (∃ output, m.data = 0 :: output ∧ 3 ≤ output.length) ∧
        (w.made.length < 2 ^ 29 → w.server.crypt.rxIv < w.server.crypt.txIv))) := by
  have hw := (h₀.inv aes).run hr
  obtain ⟨m, hm, hc, h1, h2, hlen⟩ := executes_made hi hw hs hx
  refine ⟨m, hm, hc, h1, h2, ?_⟩
  have hdata := (hw.made m hm).data
  unfold Made.Data at hdata
  cases ho : m.origin with
  | client command =>
    rw [ho] at hdata
    obtain ⟨buf, hbuf, hd⟩ := hdata
    refine Or.inl ⟨command, rfl, fun hlt => ?_⟩
    rw [← hc, Made.command, hd, command_data hbuf hlt, takeWhile_command]
  | server =>
    rw [ho] at hdata
    refine Or.inr ⟨rfl, ?_, fun hlt => ?_⟩
    · obtain hd | ⟨output, hd⟩ := hdata
      · rw [hd] at hlen
        exact absurd hlen (by decide)
      · rw [hd, List.length_cons] at hlen
        exact ⟨output, hd, by simp only [cmdSize] at hlen; omega⟩
    · have h3 := (hw.tx hlt).2 m hm ho
      rw [UInt32.lt_iff_toNat_lt] at h1 ⊢
      omega

/-- the key is zero: the IVs are 1, 2, 3, ... -/
def world₀ : World :=
  ⟨{ Server.init with state := typeSendCmd, ts := some 0, opens := 1,
                      crypt := setKey true (List.replicate 40 0) Server.init.crypt },
    setKey true (List.replicate 40 0) Server.init.crypt, []⟩

theorem start_world₀ : Start (List.replicate 40 0) world₀ :=
  ⟨rfl, ⟨true, _, rfl⟩, ⟨true, _, rfl⟩, List.length_replicate, rfl⟩

def config₀ : Config := ⟨0, 0, [], true, true⟩

/-- the client has sent a command -/
def world₁ (aes : Cipher) (command : CStr) : World := world₀.send aes (List.replicate msgbufSize 0) command

theorem step_world₁ (aes : Cipher) {command : CStr} (h : command.length < 1024) :
    Step aes config₀ world₀ (world₁ aes command) := by
  refine .send _ _ _ List.length_replicate ?_
  have hb := encLen_bounds (commandLen command)
  simp only [commandLen, cmdSize, encSize, msgbufSize] at hb ⊢
  omega

/-- its body has the IV 1, and the server executes it -/
theorem made_world₁ (aes : Cipher) {command : CStr} (h : command.length < 1024) :
    ∃ m, (world₁ aes command).made = [m] ∧ m.iv = 1 ∧ m.data = 0 :: 0 :: 10 :: (command.bytes ++ [0]) :=
  ⟨_, rfl, show (getTxIv world₀.client).txIv = 1 by decide, command_data List.length_replicate h⟩

theorem step_world₂ {aes : Cipher} (hi : aes.Inverts) {command : CStr} (h : command.length < 1024)
    (h0 : 0 < command.length) {m : Made} (hm : (world₁ aes command).made = [m]) (hiv : m.iv = 1)
    (hd : m.data = 0 :: 0 :: 10 :: (command.bytes ++ [0])) {env : Env} (hpipe : env.pipe = true)
    (hfork : env.fork = true) : Step aes config₀ (world₁ aes command)
      ((world₁ aes command).serve ((world₁ aes command).execute aes config₀ env m)) := by
  have hrx : (world₁ aes command).server.crypt.rxIv = 0 := show world₀.server.crypt.rxIv = 0 by decide
  refine step_made hi ((start_world₀.inv aes).step (step_world₁ aes h)) rfl hpipe hfork
    (by rw [hm]; exact List.mem_singleton_self m) hd ?_ ?_ ?_
  · simp only [List.length_cons, List.length_append, cmdSize]
    unfold CStr.length at h0
    omega
  · rw [hrx, hiv]
    decide
  · rw [hrx, hiv]
    decide

def commandId : CStr := ⟨CStr.ascii ['i', 'd'], by decide⟩

theorem executed_origin_id : ∃ m ∈ (world₁ aesFirst commandId).made,
    m.command = commandId.bytes ∧ 0 < m.iv ∧ m.iv ≤ 128 ∧
      ((∃ command, m.origin = .client command ∧
        (command.length < 1024 → commandId.bytes = command.bytes)) ∨
       (m.origin = .server ∧ (∃ output, m.data = 0 :: output ∧ 3 ≤ output.length) ∧
        (1 < 2 ^ 29 → world₀.server.crypt.rxIv < world₀.server.crypt.txIv))) := by
  have s₁ := step_world₁ aesFirst (show commandId.length < 1024 by decide)
  obtain ⟨m, hm, hiv, hd⟩ := made_world₁ aesFirst (show commandId.length < 1024 by decide)
  have hi : aesFirst.Inverts := tableCipher_inverts _ _
  have hc : m.command = commandId.bytes := by rw [Made.command, hd, takeWhile_command]
  have s₂ := step_world₂ hi (by decide) (by decide) hm hiv hd (show envOk.pipe = true from rfl) rfl
  exact executed_origin hi start_world₀ (.single s₁) s₂
    (hc ▸ execute_executes aesFirst _ envOk ((start_world₀.inv aesFirst).step s₁).pktbuf m)

/-- every command that is executed was encrypted by the client -/
def ClientOnly (aes : Cipher) : Prop :=
  ∀ (cfg : Config) (skey : List UInt8) (w₀ w w' : World) (cmd : List UInt8), Start skey w₀ →
    Relation.ReflTransGen (Step aes cfg) w₀ w → Step aes cfg w w' → Executes w w' cmd →
    ∃ m ∈ w.made, (∃ command, m.origin = .client command) ∧ m.command = cmd

theorem commandA_nul_free : 0 ∉ CStr.ascii ['a'] := by decide

def commandA : CStr := ⟨CStr.ascii ['a'], commandA_nul_free⟩

/-- the command prints two NULs and `id` -/
def envPrints : Env :=
  { envOk with reads := [[], 0 :: 0 :: CStr.ascii ['i', 'd']], childPending := false }

/-- the second reply has the IV 2 -/
theorem made_world₂ (aes : Cipher) {m : Made} (hiv : m.iv = 1) :
    ∃ m' ∈ ((world₁ aes commandA).serve ((world₁ aes commandA).execute aes config₀ envPrints m)).made,
      m'.iv = 2 ∧ m'.data = 0 :: 0 :: 0 :: CStr.ascii ['i', 'd'] := by
  have h2 : (getTxIv (getTxIv { world₀.server.crypt with rxIv := m.iv })).txIv = 2 := by
    rw [hiv]
    decide
  obtain ⟨a, b, c, d, len, body, l, he⟩ : ∃ a b c d len body l,
      newEvents (world₁ aes commandA).server ((world₁ aes commandA).execute aes config₀ envPrints m)
        = a :: b :: c :: d :: .encrypted (getTxIv (getTxIv { world₀.server.crypt with rxIv := m.iv })).txIv
          (0 :: 0 :: 0 :: CStr.ascii ['i', 'd']) len body :: l := ⟨_, _, _, _, _, _, _, rfl⟩
  refine ⟨⟨.server, _, 0 :: 0 :: 0 :: CStr.ascii ['i', 'd'], len, body⟩,
    List.mem_append_right _ (List.mem_filterMap.mpr ⟨.encrypted _ _ len body, ?_, rfl⟩), h2, rfl⟩
  rw [he]
  simp

theorem not_clientOnly : ¬ ∃ aes : Cipher, aes.Inverts ∧ ClientOnly aes := by
  rintro ⟨aes, hi, hco⟩
  -- the client sends a command, the server executes it and replies with the output
  have s₁ := step_world₁ aes (show commandA.length < 1024 by decide)
  obtain ⟨m₁, hm₁, hiv₁, hd₁⟩ := made_world₁ aes (show commandA.length < 1024 by decide)
  have s₂ := step_world₂ hi (by decide) (by decide) hm₁ hiv₁ hd₁ (show envPrints.pipe = true from rfl) rfl
  have i₂ := ((start_world₀.inv aes).step s₁).step s₂
  obtain ⟨m₂, hm₂, hiv₂, hd₂⟩ := made_world₂ aes hiv₁
  -- the reply is reflected
  have s₃ := step_made hi i₂ (show config₀.instanceId = 0 from rfl) (show envOk.pipe = true from rfl) rfl
    hm₂ hd₂ (by decide) (by rw [hiv₂]; show m₁.iv < 2; rw [hiv₁]; decide)
    (by rw [hiv₂]; show 2 ≤ m₁.iv + maxIvIncr; rw [hiv₁]; decide)
  obtain ⟨m, hm, ⟨command, ho⟩, hc⟩ := hco config₀ _ world₀ _ _ m₂.command start_world₀
    ((Relation.ReflTransGen.single s₁).tail s₂) s₃ (execute_executes aes config₀ envOk i₂.pktbuf m₂)
  rcases List.mem_append.mp hm with hm | hm
  · rw [hm₁] at hm
    rw [List.mem_singleton.mp hm, Made.command, hd₁, takeWhile_command, Made.command, hd₂] at hc
    exact absurd hc (by decide)
  · rw [origin_of_madeOf hm] at ho
    cases ho

end Ead
