import Firmware.Ead.Gate
import Firmware.Ead.Replay

/-!
# ead: the frame that was received

The server once more, with a check at every use of the frame: the outer `none` is an access outside
the `h->len` bytes, or a copy into the buffer of `A` that is too long or of a negative length.

* `Frame.within`            a use of the frame;
* `handlePacketIn`          `handle_packet` with the checks;
* `reaches`                 the handler that a frame gets to;
* `handlePacketIn_eq`       the checks in front of the handlers never fail;
* `runFramesIn_iff`         when a run stays inside.
-/

set_option linter.unusedVariables false

namespace Ead
open Img Word

variable {α : Type}

/-! ## with checks -/

/-- `k` after a use of `n` bytes at `off`, out of `size` -/
def within (size off : Nat) (n : Int) (k : Option α) : Option α :=
  if 0 ≤ n ∧ off + n ≤ (size : Int) then k else none

def Frame.within (f : Frame) (off : Nat) (n : Int) (k : Option α) : Option α :=
  Ead.within f.len.toNat off n k

/-- the size of `abuf` -/
def abufSize : Int := maxParamLen + 1

/-- the uses that `ead_decrypt_message` makes of a message whose data start at `base` -/
def decryptIn (aes : Cipher) (c : Crypt) (size base : Nat) (len : UInt32) (data : List UInt8)
    (k : Decrypted → Option α) : Option α :=
  let d := decryptMessage aes c len data
  let n := toInt len
  let plain := plainOf aes c.key n data
  if n = 0 ∨ n.tmod encPad > 0 then k d
  else within size base (16 * ((n.toNat + 15) / 16) : Nat) <|
    within size (base + 24) 1 <|
    if padOf plain ≥ UInt8.ofNat encPad then k d
    else within size (base + 20) 4 <|
      if checkRxIv c (ivOf plain) = none then k d
      else within size base 20 <|
        within size base (64 * ((n.toNat + 63) / 64) : Nat) (k d)

def handleSendAIn (s : Server) (f : Frame) : Option (Option Outcome) :=
  let len := toInt (f.msgLen - 1)
  if len > maxParamLen + 1 then some (handleSendA s f)
  else if 0 ≤ len ∧ len ≤ abufSize then f.within (packetSize + 1) len (some (handleSendA s f))
  else none

/-- the string behind `cmd` is terminated in the frame -/
def handleSendCmdIn (aes : Cipher) (cfg : Config) (env : Env) (s : Server) (f : Frame) :
    Option (Option Outcome) :=
  decryptIn aes s.crypt f.len.toNat packetSize f.msgLen f.data fun d =>
    let datalen := d.ret - cmdSize
    if datalen ≤ 0 then some (some (handleSendCmd aes cfg env s f))
    else f.within (packetSize + encSize) cmdSize <|
      f.within (packetSize + encSize + cmdSize) datalen <|
      f.within (packetSize + encSize + cmdSize + datalen.toNat) 1 <|
        some (some (handleSendCmd aes cfg env s f))

def handleIn (aes : Cipher) (cfg : Config) (env : Env) (s : Server) (f : Frame) (type : Int) :
    Option (Option Outcome) :=
  if type = typePing then some (some (handlePing cfg s))
  else if type = typeSetUsername then
    f.within packetSize 32 (some (some (handleSetUsername cfg env s f)))
  else if type = typeGetPrime then some (handleGetPrime env s)
  else if type = typeSendA then handleSendAIn s f
  else if type = typeSendAuth then
    f.within packetSize 20 (some (some (handleSendAuth env s)))
  else handleSendCmdIn aes cfg env s f

def parseMessageIn (aes : Cipher) (cfg : Config) (env : Env) (s : Server) (f : Frame) :
    Option (Option Server) :=
  f.within 50 4 <|
  let type := toInt f.msgType
  if type ≥ typeGetPrime ∧ s.state ≠ type then some (some s)
  else f.within 56 2 <|
    if type ≠ typePing ∧ f.field 56 2 / 2 ^ 12 ≠ cfg.instanceId then some (some s)
    else
      match minLen type with
      | none => some (some s)
      | some k =>
        if toInt f.len < packetSize + k then some (some s)
        else
          -- the reply is made from the header of the frame
          f.within 0 packetSize <|
          (handleIn aes cfg env ({ s with msgLen := 0 }.emit (.handled type s.ts)) f type).map
            (Option.map (finish cfg env type))

def handlePacketIn (aes : Cipher) (cfg : Config) (env : Env) (s : Server) (f : Frame) :
    Option (Option Server) :=
  if f.len.toNat < packetSize then some (some s)
  else f.within 12 2 <| if f.field 12 2 ≠ 0x0800 then some (some s)
  else f.within 0 6 <| if slice f.bytes 0 6 ≠ List.replicate 6 0xff then some (some s)
  else f.within 23 1 <| if f.field 23 1 ≠ 17 then some (some s)
  else f.within 36 2 <| if f.field 36 2 ≠ eadPort then some (some s)
  else f.within 42 4 <| if f.field 42 4 ≠ eadMagic then some (some s)
  else f.within 46 4 <| if f.len.toNat < f.total cfg then some (some s)
  else f.within 54 2 <| if f.field 54 2 ≠ 0xffff ∧ f.field 54 2 ≠ cfg.nid then some (some s)
  else parseMessageIn aes cfg env s f

/-- a run, as `runFrames` -/
def runFramesIn (aes : Cipher) (cfg : Config) : Server → List (Env × Frame) → Option (Option Server)
  | s, [] => some (some s)
  | s, (env, f) :: l => (handlePacketIn aes cfg env s f).bind fun
    | none => some none
    | some s => runFramesIn aes cfg s l

/-! ## which handler -/

/-- the tests of `handle_packet` -/
def Accepts (cfg : Config) (f : Frame) : Prop :=
  packetSize ≤ f.len.toNat ∧ f.field 12 2 = 0x0800 ∧ slice f.bytes 0 6 = List.replicate 6 0xff ∧
  f.field 23 1 = 17 ∧ f.field 36 2 = eadPort ∧ f.field 42 4 = eadMagic ∧ f.total cfg ≤ f.len.toNat ∧
  (f.field 54 2 = 0xffff ∨ f.field 54 2 = cfg.nid)

/-- the frame gets to the handler of its type, which asks for `k` bytes -/
structure Reaches (cfg : Config) (s : Server) (f : Frame) (k : Nat) : Prop where
  accepts : Accepts cfg f
  state : ¬ (toInt f.msgType ≥ typeGetPrime ∧ s.state ≠ toInt f.msgType)
  instanceId : ¬ (toInt f.msgType ≠ typePing ∧ f.field 56 2 / 2 ^ 12 ≠ cfg.instanceId)
  handler : minLen (toInt f.msgType) = some k
  min : ¬ toInt f.len < packetSize + k

theorem within_of_le {size off : Nat} {n : Int} (k : Option α) (h : 0 ≤ n ∧ off + n ≤ (size : Int)) :
    within size off n k = k := if_pos h

theorem Frame.within_of_le {f : Frame} {off : Nat} {n : Int} (k : Option α)
    (h : 0 ≤ n ∧ off + n ≤ (f.len.toNat : Int)) : f.within off n k = k := if_pos h

/-- a message of whole blocks, or one of which nothing is decrypted -/
theorem decryptIn_eq {aes : Cipher} {c : Crypt} {size base : Nat} {len : UInt32} {data : List UInt8}
    (hn : 0 ≤ toInt len → base + toInt len ≤ size) (hneg : toInt len < 0 → base + encSize ≤ size)
    (k : Decrypted → Option α) :
    decryptIn aes c size base len data k = k (decryptMessage aes c len data) := by
  unfold decryptIn
  dsimp only
  split
  · rfl
  next hlen =>
  unfold encSize at hneg
  obtain ⟨h16, h64, h25⟩ : base + 16 * (((toInt len).toNat + 15) / 16) ≤ size ∧
      base + 64 * (((toInt len).toNat + 63) / 64) ≤ size ∧ base + 25 ≤ size := by
    by_cases hpos : 0 < toInt len
    · have hd : (toInt len).tmod 64 = 0 := by
        have := Int.tmod_nonneg 64 (Int.le_of_lt hpos)
        have h64 : ¬ (toInt len).tmod 64 > 0 := fun hm => hlen (.inr hm)
        omega
      obtain ⟨q, hq⟩ := Int.dvd_of_tmod_eq_zero hd
      have := hn (Int.le_of_lt hpos)
      omega
    · have := hneg (by
        have : toInt len ≠ 0 := fun h => hlen (.inl h)
        omega)
      omega
  have hin : ∀ {off : Nat} {n : Nat} (k : Option α), off + n ≤ size →
      within size off (n : Int) k = k := fun k h => within_of_le k ⟨by omega, by omega⟩
  rw [hin _ h16, within_of_le _ ⟨by decide, by omega⟩]
  split
  · rfl
  rw [within_of_le _ ⟨by decide, by omega⟩]
  split
  · rfl
  rw [within_of_le _ ⟨by decide, by omega⟩, hin _ h64]

/-- of a message of negative length nothing is decrypted, but its padding is looked at -/
theorem decryptIn_short {aes : Cipher} {c : Crypt} {size base : Nat} {len : UInt32}
    {data : List UInt8} (hneg : toInt len < 0) (hsize : size < base + encSize)
    (k : Decrypted → Option α) : decryptIn aes c size base len data k = none := by
  have hlen : ¬ (toInt len = 0 ∨ (toInt len).tmod encPad > 0) := by
    rintro (h | h)
    · omega
    · have hpos := Int.tmod_nonneg encPad (Int.neg_nonneg.mpr (Int.le_of_lt hneg))
      rw [Int.neg_tmod] at hpos
      omega
  unfold encSize at hsize
  unfold decryptIn
  dsimp only
  rw [if_neg hlen]
  unfold within
  split
  · rw [if_neg (by omega)]
  · rfl

section
variable {aes : Cipher} {cfg : Config} {env : Env} {s : Server} {f : Frame}

/-- the header is inside -/
theorem within_header {off : Nat} {n : Int} (k : Option α) (h : packetSize ≤ f.len.toNat)
    (hn : 0 ≤ n ∧ off + n ≤ packetSize) : f.within off n k = k :=
  Frame.within_of_le k ⟨hn.1, by omega⟩

theorem handlePacketIn_of_accepts (h : Accepts cfg f) :
    handlePacketIn aes cfg env s f = parseMessageIn aes cfg env s f ∧
    handlePacket aes cfg env s f = parseMessage aes cfg env s f := by
  obtain ⟨h0, h1, h2, h3, h4, h5, h6, h7⟩ := h
  have h7' : ¬ (f.field 54 2 ≠ 0xffff ∧ f.field 54 2 ≠ cfg.nid) := by
    rintro ⟨ha, hb⟩
    exact h7.elim ha hb
  unfold handlePacketIn handlePacket
  simp (disch := decide) only [within_header _ h0]
  rw [if_neg (Nat.not_lt.mpr h0), if_neg (not_not.mpr h1), if_neg (not_not.mpr h2),
    if_neg (not_not.mpr h3), if_neg (not_not.mpr h4), if_neg (not_not.mpr h5),
    if_neg (Nat.not_lt.mpr h6), if_neg h7', if_neg (Nat.not_lt.mpr h0), if_neg (not_not.mpr h1),
    if_neg (not_not.mpr h2), if_neg (not_not.mpr h3), if_neg (not_not.mpr h4),
    if_neg (not_not.mpr h5), if_neg (Nat.not_lt.mpr h6), if_neg h7']
  exact ⟨rfl, rfl⟩

/-- the same guard on both sides -/
theorem of_guards {c : Prop} [Decidable c] {a x : Option (Option Server)} {b y : Option Server}
    (h : ¬ c → a = x ∧ b = y) : (if c then x else a) = x ∧ (if c then y else b) = y := by
  by_cases hc : c
  · rw [if_pos hc, if_pos hc]
    exact ⟨rfl, rfl⟩
  · rw [if_neg hc, if_neg hc]
    exact h hc

theorem handlePacketIn_of_not_accepts (h : ¬ Accepts cfg f) :
    handlePacketIn aes cfg env s f = some (some s) ∧ handlePacket aes cfg env s f = some s := by
  unfold handlePacketIn handlePacket
  by_cases h0 : f.len.toNat < packetSize
  · rw [if_pos h0, if_pos h0]
    exact ⟨rfl, rfl⟩
  have h0' := Nat.not_lt.mp h0
  simp (disch := decide) only [within_header _ h0']
  rw [if_neg h0, if_neg h0]
  refine of_guards fun h1 => of_guards fun h2 => of_guards fun h3 => of_guards fun h4 =>
    of_guards fun h5 => of_guards fun h6 => of_guards fun h7 => ?_
  refine absurd ⟨h0', not_not.mp h1, not_not.mp h2, not_not.mp h3, not_not.mp h4, not_not.mp h5,
    Nat.not_lt.mp h6, ?_⟩ h
  by_cases h8 : f.field 54 2 = 0xffff
  · exact .inl h8
  · exact .inr (by_contra fun h9 => h7 ⟨h8, h9⟩)

theorem handlePacketIn_of_reaches {k : Nat} (h : Reaches cfg s f k) :
    handlePacketIn aes cfg env s f = (handleIn aes cfg env (s.start (toInt f.msgType)) f
      (toInt f.msgType)).map (Option.map (finish cfg env (toInt f.msgType))) ∧
    handlePacket aes cfg env s f = (handle aes cfg env (s.start (toInt f.msgType)) f
      (toInt f.msgType)).map (finish cfg env (toInt f.msgType)) := by
  obtain ⟨h1, h2⟩ := @handlePacketIn_of_accepts aes cfg env s f h.accepts
  have h0 := h.accepts.1
  rw [h1, h2]
  unfold parseMessageIn parseMessage
  simp (disch := decide) only [within_header _ h0, h.handler]
  rw [if_neg h.state, if_neg h.instanceId, if_neg h.min, if_neg h.state, if_neg h.instanceId,
    if_neg h.min]
  exact ⟨rfl, rfl⟩

/-- a frame that gets to no handler changes nothing -/
theorem handlePacketIn_of_not (h : ∀ k, ¬ Reaches cfg s f k) :
    handlePacketIn aes cfg env s f = some (some s) ∧ handlePacket aes cfg env s f = some s := by
  by_cases ha : Accepts cfg f
  · obtain ⟨h1, h2⟩ := @handlePacketIn_of_accepts aes cfg env s f ha
    have h0 := ha.1
    rw [h1, h2]
    unfold parseMessageIn parseMessage
    simp (disch := decide) only [within_header _ h0]
    refine of_guards fun hs => of_guards fun hi => ?_
    cases hm : minLen (toInt f.msgType) with
    | none => exact ⟨rfl, rfl⟩
    | some k =>
      have hmin : toInt f.len < packetSize + k := by
        by_contra hmin
        exact h k ⟨ha, hs, hi, hm, hmin⟩
      simp only [if_pos hmin]
      exact ⟨trivial, trivial⟩
  · exact handlePacketIn_of_not_accepts ha

/-! ## one frame -/

theorem Reaches.len {k : Nat} (h : Reaches cfg s f k) :
    packetSize + k ≤ f.len.toNat ∧ f.len.toNat < 2 ^ 31 ∧ -62 ≤ toInt f.msgLen ∧
      (0 ≤ toInt f.msgLen → packetSize + toInt f.msgLen ≤ f.len.toNat) := by
  have hmin := h.min
  have htot := h.accepts.2.2.2.2.2.2.1
  have hl := f.msgLen.toNat_lt
  have hlen : f.len.toNat < 2 ^ 31 ∧ packetSize + k ≤ f.len.toNat := by
    have := f.len.toNat_lt
    unfold toInt at hmin
    split at hmin <;> omega
  refine ⟨hlen.2, hlen.1, ?_⟩
  unfold Frame.total at htot
  dsimp only at htot
  unfold toInt packetSize at *
  split <;> split at htot <;> omega

/-- the frame goes as far as the handler of its type needs -/
structure Enough (aes : Cipher) (c : Crypt) (f : Frame) : Prop where
  sendA : toInt f.msgType = typeSendA → 1 ≤ f.msgLen.toNat ∧ f.msgLen.toNat ≤ 2 ^ 31
  sendCmd : toInt f.msgType = typeSendCmd →
    (decryptMessage aes c f.msgLen f.data).verified = true → 28 < toInt f.msgLen →
    padOf (plainOf aes c.key (toInt f.msgLen) f.data) ≠ 0 ∨
      packetSize + f.msgLen.toNat < f.len.toNat

theorem handleSendAIn_eq {k : Nat} (h : Reaches cfg s f k) (s' : Server) : handleSendAIn s' f
    = if 1 ≤ f.msgLen.toNat ∧ f.msgLen.toNat ≤ 2 ^ 31 then some (handleSendA s' f) else none := by
  obtain ⟨-, -, h1, h2⟩ := h.len
  have hl := f.msgLen.toNat_lt
  have hsub : f.msgLen ≠ 0 → (f.msgLen - 1).toNat = f.msgLen.toNat - 1 := by
    intro h0
    have : f.msgLen.toNat ≠ 0 := fun e => h0 (UInt32.toNat_inj.mp e)
    exact UInt32.toNat_sub_of_le _ _ (by rw [UInt32.le_iff_toNat_le]; show 1 ≤ _; omega)
  unfold handleSendAIn abufSize maxParamLen
  dsimp only
  by_cases h0 : f.msgLen = 0
  · have hm : toInt (f.msgLen - 1) = -1 := by rw [h0]; decide
    have hz : f.msgLen.toNat = 0 := by rw [h0]; rfl
    rw [hm, if_neg (by decide), if_neg (by decide), if_neg (by omega)]
  · have hsub := hsub h0
    have hz : f.msgLen.toNat ≠ 0 := fun e => h0 (UInt32.toNat_inj.mp e)
    by_cases hle : f.msgLen.toNat ≤ 2 ^ 31
    · have hm : toInt (f.msgLen - 1) = (f.msgLen.toNat : Int) - 1 := by
        unfold toInt
        rw [hsub]
        split <;> omega
      rw [hm, if_pos (show 1 ≤ f.msgLen.toNat ∧ _ from ⟨by omega, hle⟩)]
      by_cases hgt : (f.msgLen.toNat : Int) - 1 > 256 + 1
      · rw [if_pos hgt]
      · rw [if_neg hgt, if_pos ⟨by omega, by omega⟩]
        have h3 : toInt f.msgLen = f.msgLen.toNat := by
          unfold toInt
          rw [if_pos (by omega)]
        rw [h3] at h2
        have := h2 (by omega)
        unfold packetSize at *
        exact Frame.within_of_le _ ⟨by omega, by omega⟩
    · have hm : toInt (f.msgLen - 1) = (f.msgLen.toNat : Int) - 1 - 2 ^ 32 := by
        unfold toInt
        rw [hsub]
        split <;> omega
      rw [hm, if_neg (by omega), if_neg (by omega), if_neg (by omega)]

/-- what the accepted length is -/
theorem decrypt_ret {c : Crypt} {len : UInt32} {body : List UInt8} :
    ((decryptMessage aes c len body).verified = false → (decryptMessage aes c len body).ret = 0) ∧
    ((decryptMessage aes c len body).verified = true →
      (padOf (plainOf aes c.key (toInt len) body)).toNat < 64 ∧
      (decryptMessage aes c len body).ret = CInt.wrap
        (toInt len - ((padOf (plainOf aes c.key (toInt len) body)).toNat + encSize))) := by
  refine ⟨fun hv => verified_or_ret.resolve_left (by rw [hv]; exact nofun), fun hv => ?_⟩
  have h : Passes c (toInt len) (plainOf aes c.key (toInt len) body) := by
    by_contra h
    rw [(decrypt_of_not_passes h).2] at hv
    exact absurd hv nofun
  obtain ⟨-, -, hr⟩ := decrypt_of_passes rfl h
  exact ⟨UInt8.lt_iff_toNat_lt.mp (UInt8.not_le.mp h.pad), hr hv⟩

theorem handleSendCmdIn_eq (h : Reaches cfg s f (cmdSize + encSize)) (s' : Server) :
    handleSendCmdIn aes cfg env s' f =
      if (decryptMessage aes s'.crypt f.msgLen f.data).verified = true → 28 < toInt f.msgLen →
          padOf (plainOf aes s'.crypt.key (toInt f.msgLen) f.data) ≠ 0 ∨
            packetSize + f.msgLen.toNat < f.len.toNat
      then some (some (handleSendCmd aes cfg env s' f)) else none := by
  obtain ⟨h90, -, h1, h2⟩ := h.len
  have h90' : 90 ≤ f.len.toNat := h90
  obtain ⟨hr0, hr1⟩ := @decrypt_ret aes s'.crypt f.msgLen f.data
  unfold handleSendCmdIn
  rw [decryptIn_eq h2 (fun _ => by unfold packetSize encSize; omega)]
  generalize decryptMessage aes s'.crypt f.msgLen f.data = d at hr0 hr1 ⊢
  generalize plainOf aes s'.crypt.key (toInt f.msgLen) f.data = plain at hr1 ⊢
  have hpos : 0 ≤ toInt f.msgLen → toInt f.msgLen = f.msgLen.toNat := by
    have := f.msgLen.toNat_lt
    unfold toInt
    split <;> omega
  dsimp only
  cases hv : d.verified with
  | false =>
    rw [hr0 hv, if_pos (by decide), if_pos nofun]
  | true =>
    obtain ⟨hpad, hret⟩ := hr1 hv
    have hret : d.ret = toInt f.msgLen - ((padOf plain).toNat + encSize) := by
      rw [hret]
      refine CInt.wrap_of_inRange ?_
      have := f.msgLen.toNat_lt
      unfold CInt.inRange encSize
      unfold toInt at h1 ⊢
      split at h1 <;> split <;> omega
    have hzero : padOf plain ≠ 0 ↔ (padOf plain).toNat ≠ 0 :=
      not_congr UInt8.toNat_inj.symm
    have hcond : (true = true → 28 < toInt f.msgLen → padOf plain ≠ 0 ∨
        packetSize + f.msgLen.toNat < f.len.toNat) ↔
        (28 < toInt f.msgLen → (padOf plain).toNat ≠ 0 ∨
          packetSize + f.msgLen.toNat < f.len.toNat) := by
      rw [hzero]
      exact ⟨fun hx => hx rfl, fun hx _ => hx⟩
    rw [hret, if_congr hcond rfl rfl]
    by_cases hle : toInt f.msgLen - ((padOf plain).toNat + encSize) - cmdSize ≤ 0
    · rw [if_pos hle, if_pos]
      intro h28
      unfold encSize cmdSize at hle
      omega
    · unfold encSize cmdSize at hle
      have hn := hpos (by omega)
      have hfit := h2 (by omega)
      rw [hn] at hle hfit ⊢
      unfold packetSize encSize cmdSize at *
      rw [if_neg (by omega), Frame.within_of_le _ ⟨by decide, by omega⟩,
        Frame.within_of_le _ ⟨by omega, by omega⟩]
      unfold Frame.within
      refine if_congr ⟨fun hx _ => by omega, fun hx => ?_⟩ rfl rfl
      have := hx (by omega)
      omega

/-- **A handler stays inside** exactly if the frame goes as far as it needs. -/
theorem handleIn_eq {k : Nat} (h : Reaches cfg s f k) (s' : Server) :
    (Enough aes s'.crypt f → handleIn aes cfg env s' f (toInt f.msgType)
      = some (handle aes cfg env s' f (toInt f.msgType))) ∧
    (¬ Enough aes s'.crypt f → handleIn aes cfg env s' f (toInt f.msgType) = none) := by
  obtain ⟨hk, -, -, -⟩ := h.len
  have hm := h.handler
  have hother : toInt f.msgType ≠ typeSendA → toInt f.msgType ≠ typeSendCmd →
      Enough aes s'.crypt f := fun ha hc => ⟨fun e => absurd e ha, fun e => absurd e hc⟩
  have hquiet : toInt f.msgType ≠ typeSendA → toInt f.msgType ≠ typeSendCmd →
      handleIn aes cfg env s' f (toInt f.msgType)
        = some (handle aes cfg env s' f (toInt f.msgType)) →
      (Enough aes s'.crypt f → handleIn aes cfg env s' f (toInt f.msgType)
        = some (handle aes cfg env s' f (toInt f.msgType))) ∧
      (¬ Enough aes s'.crypt f → handleIn aes cfg env s' f (toInt f.msgType) = none) :=
    fun ha hc he => ⟨fun _ => he, fun hne => absurd (hother ha hc) hne⟩
  by_cases h0 : toInt f.msgType = typePing
  · refine hquiet (by rw [h0]; decide) (by rw [h0]; decide) ?_
    unfold handleIn handle
    rw [if_pos h0, if_pos h0]
  by_cases h1 : toInt f.msgType = typeSetUsername
  · refine hquiet (by rw [h1]; decide) (by rw [h1]; decide) ?_
    rw [h1] at hm
    have hk32 : k = 32 := (Option.some.inj hm).symm
    unfold handleIn handle
    rw [if_neg h0, if_pos h1, if_neg h0, if_pos h1]
    exact Frame.within_of_le _ ⟨by decide, by omega⟩
  by_cases h2 : toInt f.msgType = typeGetPrime
  · refine hquiet (by rw [h2]; decide) (by rw [h2]; decide) ?_
    unfold handleIn handle
    rw [if_neg h0, if_neg h1, if_pos h2, if_neg h0, if_neg h1, if_pos h2]
  by_cases h3 : toInt f.msgType = typeSendA
  · have henough : Enough aes s'.crypt f ↔ (1 ≤ f.msgLen.toNat ∧ f.msgLen.toNat ≤ 2 ^ 31) :=
      ⟨fun he => he.sendA h3, fun he => ⟨fun _ => he, fun e => absurd (h3.symm.trans e) (by decide)⟩⟩
    unfold handleIn handle
    rw [if_neg h0, if_neg h1, if_neg h2, if_pos h3, if_neg h0, if_neg h1, if_neg h2, if_pos h3,
      handleSendAIn_eq h, henough]
    exact ⟨fun he => if_pos he, fun he => if_neg he⟩
  by_cases h4 : toInt f.msgType = typeSendAuth
  · refine hquiet (by rw [h4]; decide) (by rw [h4]; decide) ?_
    rw [h4] at hm
    have hk20 : k = 20 := (Option.some.inj hm).symm
    unfold handleIn handle
    rw [if_neg h0, if_neg h1, if_neg h2, if_neg h3, if_pos h4, if_neg h0, if_neg h1, if_neg h2,
      if_neg h3, if_pos h4]
    exact Frame.within_of_le _ ⟨by decide, by omega⟩
  · have h5 : toInt f.msgType = typeSendCmd := by
      by_contra h5
      unfold minLen at hm
      rw [if_neg h0, if_neg h1, if_neg h2, if_neg h3, if_neg h4, if_neg h5] at hm
      exact absurd hm nofun
    have hk28 : k = cmdSize + encSize := by
      rw [h5] at hm
      exact (Option.some.inj hm).symm
    subst hk28
    have heq := @handleSendCmdIn_eq aes cfg env s f h s'
    unfold handleIn handle
    rw [if_neg h0, if_neg h1, if_neg h2, if_neg h3, if_neg h4, if_neg h0, if_neg h1, if_neg h2,
      if_neg h3, if_neg h4, heq]
    exact ⟨fun he => if_pos (he.sendCmd h5), fun he => if_neg fun hc =>
      he ⟨fun e => absurd e h3, fun _ => hc⟩⟩

/-- **A frame stays inside** exactly if it goes as far as its handler needs. -/
theorem handlePacketIn_eq :
    ((∀ k, Reaches cfg s f k → Enough aes s.crypt f) →
      handlePacketIn aes cfg env s f = some (handlePacket aes cfg env s f)) ∧
    (¬ (∀ k, Reaches cfg s f k → Enough aes s.crypt f) → handlePacketIn aes cfg env s f = none) := by
  by_cases hr : ∃ k, Reaches cfg s f k
  · obtain ⟨k, hr⟩ := hr
    obtain ⟨e1, e2⟩ := @handlePacketIn_of_reaches aes cfg env s f k hr
    obtain ⟨h1, h2⟩ := @handleIn_eq aes cfg env s f k hr (s.start (toInt f.msgType))
    have hall : (∀ k, Reaches cfg s f k → Enough aes s.crypt f) ↔ Enough aes s.crypt f :=
      ⟨fun h => h k hr, fun h _ _ => h⟩
    rw [e1, e2, hall]
    refine ⟨fun he => ?_, fun he => ?_⟩
    · rw [h1 he]
      rfl
    · rw [h2 he]
      rfl
  · have hno : ∀ k, ¬ Reaches cfg s f k := fun k hk => hr ⟨k, hk⟩
    obtain ⟨e1, e2⟩ := @handlePacketIn_of_not aes cfg env s f hno
    rw [e1, e2]
    exact ⟨fun _ => rfl, fun he => absurd (fun k hk => absurd hk (hno k)) he⟩

end

/-! ## runs -/

/-- every frame of a run that is handled goes as far as its handler needs -/
def AllEnough (aes : Cipher) (cfg : Config) (s : Server) (frames : List (Env × Frame)) : Prop :=
  ∀ a env f b s', frames = a ++ (env, f) :: b → runFrames aes cfg s a = some s' →
    ∀ k, Reaches cfg s' f k → Enough aes s'.crypt f

theorem allEnough_cons {aes : Cipher} {cfg : Config} {s : Server} {env : Env} {f : Frame}
    {l : List (Env × Frame)} : AllEnough aes cfg s ((env, f) :: l) ↔
      (∀ k, Reaches cfg s f k → Enough aes s.crypt f) ∧
      ∀ s', handlePacket aes cfg env s f = some s' → AllEnough aes cfg s' l := by
  constructor
  · intro h
    refine ⟨h [] env f l s rfl rfl, fun s' hs a env' f' b s'' hl hr => ?_⟩
    refine h ((env, f) :: a) env' f' b s'' (by rw [hl]; rfl) ?_
    rw [runFrames, hs]
    exact hr
  · rintro ⟨h1, h2⟩ a env' f' b s' hl hr
    cases a with
    | nil =>
      have hl := List.cons.inj hl
      have he := Prod.mk.inj hl.1
      rw [← he.2, ← Option.some.inj hr]
      exact h1
    | cons x a =>
      have hl := List.cons.inj hl
      rw [← hl.1, runFrames] at hr
      obtain ⟨s₁, hs, hr⟩ := Option.bind_eq_some_iff.mp hr
      exact h2 s₁ hs a env' f' b s' hl.2 hr

/-- **A run stays inside the frames and the buffers**, and does what it did without the checks,
exactly if every frame that is handled goes as far as its handler needs: `A` has a length field from
1 to 2^31, and a command that is accepted has padding, or more bytes of the frame behind it. -/
theorem runFramesIn_iff (aes : Cipher) (cfg : Config) (frames : List (Env × Frame)) :
    runFramesIn aes cfg Server.init frames = some (runFrames aes cfg Server.init frames) ↔
      AllEnough aes cfg Server.init frames := by
  generalize Server.init = s
  induction frames generalizing s with
  | nil => exact iff_of_true rfl fun a env f b s' hl => absurd hl (by simp)
  | cons x l ih =>
    obtain ⟨env, f⟩ := x
    obtain ⟨h1, h2⟩ := @handlePacketIn_eq aes cfg env s f
    rw [allEnough_cons, runFramesIn, runFrames]
    by_cases he : ∀ k, Reaches cfg s f k → Enough aes s.crypt f
    · rw [h1 he, Option.bind_some, and_iff_right he]
      cases hp : handlePacket aes cfg env s f with
      | none => exact iff_of_true rfl nofun
      | some s' =>
        rw [Option.bind_some]
        show runFramesIn aes cfg s' l = some (runFrames aes cfg s' l) ↔ _
        rw [ih]
        exact ⟨fun h s'' e => Option.some.inj e ▸ h, fun h => h s' rfl⟩
    · rw [h2 he]
      exact iff_of_false nofun fun h => he h.1

/-- `A` without a length: the copy has length -1 -/
def emptyA : List (Env × Frame) :=
  sessionFrames.take 2 ++ [(envOk, ⟨63, (frameOf 6 []).bytes ++ [0]⟩)]

theorem runFramesIn_emptyA : runFramesIn aesFirst ⟨1, 0, [], true, true⟩ Server.init emptyA = none := by
  decide +kernel

end Ead
