import Firmware.Ead.Aes
import Firmware.Ead.Replay
import Mathlib.Data.List.GetD

/-!
# ead: delivery

A message that is encrypted and arrives with an IV in the window is decrypted to itself; and the
increments keep the IVs in the window over the messages that are lost.

* `decryptMessage_encryptMessage`    the round trip of one message;
* `exchange`           the messages of one party over a network that loses some of them;
* `exchange_delivers`  every message that arrives is accepted, with its data.
-/

set_option linter.unusedVariables false

namespace Ead
open Img Word

/-! ## one message -/

theorem padFor_lt (len : Nat) : padFor len < 64 := Nat.mod_lt _ (by decide)

theorem encLen_blocks (len : Nat) : ∃ q, encLen len = 64 * (q + 1) := by
  unfold encLen padFor encSize encPad
  exact ⟨(len + 25 + (64 - (len + 25) % 64) % 64) / 64 - 1, by omega⟩

theorem encLen_bounds (len : Nat) : len + encSize ≤ encLen len ∧ encLen len < len + encSize + 64 := by
  have := padFor_lt len
  unfold encLen
  omega

/-- what stands behind the hash -/
def sealTail (iv : UInt32) (body : List UInt8) (len : Nat) : List UInt8 :=
  put32 true iv ++ (UInt8.ofNat (padFor len) :: body.drop 25)

theorem hashMessage_append {x : List UInt8} (tail : List UInt8) (len : Nat) (h : x.length = 20) :
    hashMessage (x ++ tail) len = (foldBlocks 64 shaTransform ((len + 63) / 64)
      (List.replicate 20 0 ++ tail) shaInit, List.replicate 20 0 ++ tail) := by
  have hp : poke (x ++ tail) 0 (List.replicate 20 0) = List.replicate 20 0 ++ tail := by
    unfold poke
    rw [List.take_zero, List.nil_append, List.length_replicate, Nat.zero_add, List.drop_left' h]
  unfold hashMessage
  rw [hp]

theorem bytes_length (h : Digest) : h.bytes.length = 20 := rfl

theorem hashOf_bytes (h : Digest) (tail : List UInt8) : hashOf (h.bytes ++ tail) = h := by
  have hs : ∀ a b w, a.length + 4 + b.length = 20 → h.bytes = a ++ (put32 true w ++ b) →
      get32 true (slice (h.bytes ++ tail) a.length 4) = w := by
    intro a b w hl e
    rw [e, slice_append_left _ _ _ _ (by simp), slice_of_split rfl rfl (put32_length true w),
      get32_put32]
  unfold hashOf
  have h0 := hs [] (put32 true h.b ++ (put32 true h.c ++ (put32 true h.d ++ put32 true h.e))) h.a rfl rfl
  have h1 := hs (put32 true h.a) (put32 true h.c ++ (put32 true h.d ++ put32 true h.e)) h.b rfl rfl
  have h2 := hs (put32 true h.a ++ put32 true h.b) (put32 true h.d ++ put32 true h.e) h.c rfl rfl
  have h3 := hs (put32 true h.a ++ (put32 true h.b ++ put32 true h.c)) (put32 true h.e) h.d rfl rfl
  have h4 := hs (put32 true h.a ++ (put32 true h.b ++ (put32 true h.c ++ put32 true h.d))) [] h.e rfl rfl
  exact (Digest.mk.injEq ..).mpr ⟨h0, h1, h2, h3, h4⟩

theorem sealMessage_eq (iv : UInt32) (body : List UInt8) (len : Nat) (h : 25 ≤ body.length) :
    sealMessage iv body len = (foldBlocks 64 shaTransform ((encLen len + 63) / 64)
      (List.replicate 20 0 ++ sealTail iv body len) shaInit).bytes ++ sealTail iv body len := by
  have h1 : poke body 24 [UInt8.ofNat (padFor len)]
      = body.take 20 ++ (slice body 20 4 ++ (UInt8.ofNat (padFor len) :: body.drop 25)) := by
    have h24 : body.take 24 = body.take 20 ++ slice body 20 4 := List.take_add (i := 20) (j := 4)
    unfold poke
    rw [h24, List.append_assoc]
    rfl
  have h2 : poke (poke body 24 [UInt8.ofNat (padFor len)]) 20 (put32 true iv)
      = body.take 20 ++ sealTail iv body len :=
    poke_of_split h1 (by rw [List.length_take]; omega) (by rw [slice_length _ _ _ (by omega)]; rfl)
  have h3 : (body.take 20).length = 20 := by
    rw [List.length_take]
    omega
  unfold sealMessage
  simp only
  rw [h2, hashMessage_append _ _ h3]
  unfold poke
  rw [List.take_zero, List.nil_append, bytes_length, Nat.zero_add,
    List.drop_left' (List.length_replicate ..)]

/-- the length field of an encrypted message -/
theorem toInt_encLen {len : Nat} (h : len < 2 ^ 16) : toInt (UInt32.ofNat (encLen len)) = encLen len := by
  have hb := encLen_bounds len
  simp only [encSize] at hb
  unfold toInt
  rw [UInt32.toNat_ofNat', Nat.mod_eq_of_lt (by omega), if_pos (by omega)]

theorem sealTail_length (iv : UInt32) {body : List UInt8} {len : Nat} (h : body.length = encLen len) :
    (sealTail iv body len).length + 20 = encLen len := by
  have hb := encLen_bounds len
  simp only [encSize] at hb
  rw [sealTail, List.length_append, put32_length, List.length_cons, List.length_drop]
  omega

/-- the hash of a message, and what stands behind the message -/
theorem hash_append {tail : List UInt8} {len : Nat} (h : tail.length + 20 = encLen len) (r : List UInt8) :
    foldBlocks 64 shaTransform ((encLen len + 63) / 64) (List.replicate 20 0 ++ (tail ++ r)) shaInit
      = foldBlocks 64 shaTransform ((encLen len + 63) / 64) (List.replicate 20 0 ++ tail) shaInit := by
  obtain ⟨q, hq⟩ := encLen_blocks len
  rw [← List.append_assoc]
  refine foldBlocks_append _ _ _ _ ?_
  rw [List.length_append, List.length_replicate]
  omega

theorem sealTail_append {iv : UInt32} {body : List UInt8} {len : Nat} (h : 25 ≤ body.length)
    (r : List UInt8) : sealTail iv (body ++ r) len = sealTail iv body len ++ r := by
  unfold sealTail
  rw [List.drop_append_of_le_length h]
  simp

theorem sealMessage_append {iv : UInt32} {body : List UInt8} {len : Nat} (h : body.length = encLen len)
    (r : List UInt8) : sealMessage iv (body ++ r) len = sealMessage iv body len ++ r := by
  have h25 : 25 ≤ body.length := by
    have hb := encLen_bounds len
    simp only [encSize] at hb
    omega
  rw [sealMessage_eq _ _ _ h25, sealMessage_eq _ _ _ (by rw [List.length_append]; omega),
    sealTail_append h25, hash_append (sealTail_length _ h), List.append_assoc]

theorem sealMessage_length (iv : UInt32) {body : List UInt8} {len : Nat} (h : body.length = encLen len) :
    (sealMessage iv body len).length = encLen len := by
  have hb := encLen_bounds len
  have ht := sealTail_length iv h
  simp only [encSize] at hb
  rw [sealMessage_eq _ _ _ (by omega), List.length_append, bytes_length]
  omega

theorem encrypt_length {aes : Cipher} {c : Crypt} {body : List UInt8} {len : Nat}
    (h : body.length = encLen len) : (encryptMessage aes c body len).body.length = encLen len := by
  obtain ⟨q, hq⟩ := encLen_blocks len
  have hl := sealMessage_length (getTxIv c).txIv h
  show (mapBlocks 16 _ _ _).length = _
  rw [mapBlocks_length (aes.encrypt_length _) _ _ (by omega), hl]

/-- what stands behind the message in the buffer is left alone -/
theorem encrypt_append {aes : Cipher} {c : Crypt} {body : List UInt8} {len : Nat}
    (h : body.length = encLen len) (r : List UInt8) :
    (encryptMessage aes c (body ++ r) len).body = (encryptMessage aes c body len).body ++ r := by
  obtain ⟨q, hq⟩ := encLen_blocks len
  have hl := sealMessage_length (getTxIv c).txIv h
  show mapBlocks 16 _ _ (sealMessage _ _ _) = mapBlocks 16 _ _ _ ++ r
  rw [sealMessage_append h, mapBlocks_append _ _ _ (by omega)]

/-- an encrypted message, decrypted, with what stands behind it -/
theorem plainOf_encrypt {aes : Cipher} (hi : aes.Inverts) (c : Crypt) {body : List UInt8} {len : Nat}
    (h : body.length = encLen len) (r : List UInt8) :
    plainOf aes c.key (encLen len) ((encryptMessage aes c body len).body ++ r)
      = sealMessage (c.txIv + c.ofs) body len ++ r := by
  obtain ⟨q, hq⟩ := encLen_blocks len
  have hl := sealMessage_length (getTxIv c).txIv h
  unfold plainOf
  rw [Int.toNat_natCast, mapBlocks_append _ _ _ (by rw [encrypt_length h]; omega)]
  congr 1
  exact mapBlocks_inverse (aes.encrypt_length c.key) (hi c.key) _ _ (by omega)

theorem padOf_append {x : List UInt8} (iv : UInt32) (p : UInt8) (r : List UInt8) (hx : x.length = 20) :
    padOf (x ++ (put32 true iv ++ (p :: r))) = p := by
  unfold padOf
  rw [← List.append_assoc, List.getD_append_right _ _ _ _ (by simp [hx])]
  simp [hx]

theorem ivOf_append {x : List UInt8} (iv : UInt32) (r : List UInt8) (hx : x.length = 20) :
    ivOf (x ++ (put32 true iv ++ r)) = iv := by
  unfold ivOf
  rw [slice_of_split rfl hx (put32_length true _), get32_put32]

/-- the IV that an encrypted message carries -/
theorem ivOf_encrypt {aes : Cipher} (hi : aes.Inverts) (c : Crypt) {body : List UInt8} {len : Nat}
    (h : body.length = encLen len) (r : List UInt8) :
    ivOf (plainOf aes c.key (encLen len) ((encryptMessage aes c body len).body ++ r))
      = c.txIv + c.ofs := by
  have hb := encLen_bounds len
  simp only [encSize] at hb
  rw [plainOf_encrypt hi c h, sealMessage_eq _ _ _ (by omega), sealTail, List.append_assoc,
    List.append_assoc, ivOf_append _ _ (bytes_length _)]

theorem decryptMessage_encryptMessage {aes : Cipher} (hi : aes.Inverts) {s r r' : Crypt} (hk : s.key = r.key)
    {body : List UInt8} {len : Nat} (h : body.length = encLen len) (hlen : len < 2 ^ 16)
    (rest : List UInt8) (hiv : checkRxIv r (s.txIv + s.ofs) = some r') :
    decryptMessage aes r (UInt32.ofNat (encLen len)) ((encryptMessage aes s body len).body ++ rest)
      = ⟨r', List.replicate 20 0 ++ (sealTail (s.txIv + s.ofs) body len ++ rest), true, len⟩ := by
  obtain ⟨q, hq⟩ := encLen_blocks len
  have hb := encLen_bounds len
  simp only [encSize] at hb
  have hpad := padFor_lt len
  have hmod : ((encLen len : Nat) : Int).tmod encPad = 0 := by
    rw [hq, Nat.cast_mul]
    exact Int.mul_tmod_right _ _
  have hp : ∀ x : List UInt8, x.length = 20 →
      padOf (x ++ (sealTail (s.txIv + s.ofs) body len ++ rest)) = UInt8.ofNat (padFor len) := by
    intro x hx
    rw [sealTail, List.append_assoc]
    exact padOf_append _ _ _ hx
  unfold decryptMessage
  simp only [toInt_encLen hlen]
  rw [if_neg (by omega), ← hk, ivOf_encrypt hi s h, hiv, plainOf_encrypt hi s h,
    sealMessage_eq _ _ _ (by omega), List.append_assoc, hp _ (bytes_length _), if_neg ?_]
  · simp only [hashMessage_append _ _ (bytes_length _), hashOf_bytes, Int.toNat_natCast]
    rw [hash_append (sealTail_length _ h), if_neg (by simp), hp _ (List.length_replicate ..)]
    simp only [UInt8.toNat_ofNat', encLen]
    congr 1
    unfold CInt.wrap
    omega
  · rw [ge_iff_le, UInt8.not_le, UInt8.lt_iff_toNat_lt, UInt8.toNat_ofNat', UInt8.toNat_ofNat']
    simp only [encPad]
    omega

theorem ofs_bounds (c : Crypt) : 1 ≤ c.ofs.toNat ∧ c.ofs.toNat ≤ 4 := by
  have h : ((c.ivofsVec >>> UInt32.ofNat (2 * c.ivofsIdx)) &&& 0x3).toNat ≤ 3 := by
    rw [UInt32.toNat_and]
    exact Nat.and_le_right
  unfold Crypt.ofs
  rw [UInt32.toNat_add, show (1 : UInt32).toNat = 1 from rfl]
  omega

/-! ## a sequence of messages -/

/-- the buffer of a message, from `struct ead_msg_encrypted` on, and the length of its data -/
structure Message where
  buf : List UInt8
  len : Nat
  short : len < 2 ^ 16
  room : encLen len ≤ buf.length

def Message.data (m : Message) : List UInt8 := slice m.buf encSize m.len

/-- one party encrypts the messages in order; the flag says which ones reach the other party -/
def exchange (aes : Cipher) : Crypt → Crypt → List (Message × Bool) → List Decrypted
  | _, _, [] => []
  | s, r, (m, false) :: l => exchange aes (encryptMessage aes s m.buf m.len).crypt r l
  | s, r, (m, true) :: l =>
    let e := encryptMessage aes s m.buf m.len
    let d := decryptMessage aes r e.len e.body
    d :: exchange aes e.crypt d.crypt l

def delivered (l : List (Message × Bool)) : List Message := (l.filter fun e => e.2).map fun e => e.1

/-- at most `k` consecutive messages are lost -/
def LossAtMost (k : Nat) (l : List (Message × Bool)) : Prop :=
  ∀ a b c, l = a ++ (b ++ c) → (∀ e ∈ b, e.2 = false) → b.length ≤ k

/-- the length and the bytes of the data come out as they were sent -/
def Accepted (m : Message) (d : Decrypted) : Prop :=
  d.verified = true ∧ d.ret = m.len ∧ slice d.body encSize m.len = m.data

/-- the sender is ahead of the receiver by the increments of `k` lost messages -/
structure Ahead (k : Nat) (s r : Crypt) : Prop where
  key : s.key = r.key
  le : r.rxIv.toNat ≤ s.txIv.toNat
  near : s.txIv.toNat ≤ r.rxIv.toNat + 4 * k

theorem txIv_toNat {c : Crypt} (h : c.txIv.toNat + 4 < 2 ^ 32) :
    (c.txIv + c.ofs).toNat = c.txIv.toNat + c.ofs.toNat := by
  have := ofs_bounds c
  rw [UInt32.toNat_add]
  omega

theorem Ahead.lose {k : Nat} {s r : Crypt} (h : Ahead k s r) (ht : s.txIv.toNat + 4 < 2 ^ 32) :
    Ahead (k + 1) (getTxIv s) r := by
  have ho := ofs_bounds s
  have hn : (getTxIv s).txIv.toNat = _ := txIv_toNat ht
  have h1 := h.le
  have h2 := h.near
  exact ⟨h.key, by omega, by omega⟩

theorem Ahead.deliver {k : Nat} {s r : Crypt} (h : Ahead k s r) (hk : k ≤ 31)
    (ht : s.txIv.toNat + 128 < 2 ^ 32) :
    checkRxIv r (s.txIv + s.ofs) = some { r with rxIv := s.txIv + s.ofs } := by
  have ho := ofs_bounds s
  have hn := txIv_toNat (c := s) (by omega)
  have h1 := h.le
  have h2 := h.near
  have hw : (r.rxIv + maxIvIncr).toNat = r.rxIv.toNat + 128 := by
    rw [UInt32.toNat_add, show maxIvIncr.toNat = 128 from rfl]
    omega
  refine checkRxIv_eq_some.mpr ⟨?_, ?_, rfl⟩
  · rw [UInt32.lt_iff_toNat_lt]
    omega
  · rw [UInt32.le_iff_toNat_le]
    omega

theorem data_sealTail (iv : UInt32) {body : List UInt8} {len : Nat} (h : body.length = encLen len)
    (rest : List UInt8) :
    slice (List.replicate 20 0 ++ (sealTail iv body len ++ rest)) encSize len = slice body encSize len := by
  have hb := encLen_bounds len
  unfold sealTail
  rw [List.append_assoc, ← List.append_assoc, List.cons_append, List.append_cons,
    slice_append_right _ _ _ _ (by rfl)]
  show slice (body.drop 25 ++ rest) 0 len = slice body 25 len
  rw [slice_append_left _ _ _ _ (by rw [List.length_drop]; simp only [encSize] at hb; omega)]
  unfold slice
  rw [List.drop_zero]

theorem Message.accepted {aes : Cipher} (hi : aes.Inverts) {s r r' : Crypt} (hk : s.key = r.key)
    (m : Message) (hiv : checkRxIv r (s.txIv + s.ofs) = some r') :
    (decryptMessage aes r (encryptMessage aes s m.buf m.len).len
      (encryptMessage aes s m.buf m.len).body).crypt = r' ∧
    Accepted m (decryptMessage aes r (encryptMessage aes s m.buf m.len).len
      (encryptMessage aes s m.buf m.len).body) := by
  have hb := encLen_bounds m.len
  have hl : (m.buf.take (encLen m.len)).length = encLen m.len := by
    rw [List.length_take]
    exact Nat.min_eq_left m.room
  have he : (encryptMessage aes s m.buf m.len).body
      = (encryptMessage aes s (m.buf.take (encLen m.len)) m.len).body ++ m.buf.drop (encLen m.len) := by
    rw [← encrypt_append hl, List.take_append_drop]
  have hd := decryptMessage_encryptMessage hi hk hl m.short (m.buf.drop (encLen m.len)) hiv
  rw [← he] at hd
  rw [show (encryptMessage aes s m.buf m.len).len = UInt32.ofNat (encLen m.len) from rfl, hd]
  refine ⟨rfl, rfl, rfl, ?_⟩
  rw [data_sealTail _ hl]
  show slice (m.buf.take (encLen m.len)) encSize m.len = slice m.buf encSize m.len
  conv_rhs => rw [← List.take_append_drop (encLen m.len) m.buf]
  rw [slice_append_left _ _ _ _ (by omega)]

theorem exchange_accepts {aes : Cipher} (hi : aes.Inverts) (l : List (Message × Bool)) :
    ∀ (k : Nat) (s r : Crypt), Ahead k s r → s.txIv.toNat + 4 * l.length + 128 < 2 ^ 32 →
      LossAtMost 31 l → (∀ b c, l = b ++ c → (∀ e ∈ b, e.2 = false) → k + b.length ≤ 31) →
      List.Forall₂ Accepted (delivered l) (exchange aes s r l) := by
  induction l with
  | nil =>
    intro _ _ _ _ _ _ _
    exact List.Forall₂.nil
  | cons e l ih =>
    intro k s r h ht hloss hk
    rw [List.length_cons] at ht
    have ho := ofs_bounds s
    have hn : (getTxIv s).txIv.toNat = _ := txIv_toNat (c := s) (by omega)
    have hl : LossAtMost 31 l := fun a b c e' hb => hloss (e :: a) b c (by rw [e']; rfl) hb
    obtain ⟨m, lost | sent⟩ := e
    · refine ih (k + 1) (getTxIv s) r (h.lose (by omega)) (by omega) hl fun b c e' hb => ?_
      have := hk ((m, false) :: b) c (by rw [e']; rfl)
        (by intro x hx; rcases List.mem_cons.mp hx with rfl | hx; exacts [rfl, hb x hx])
      rw [List.length_cons] at this
      omega
    · have hk0 : k ≤ 31 := hk [] _ rfl (by simp)
      obtain ⟨hc, ha⟩ := m.accepted hi h.key (h.deliver hk0 (by omega))
      show List.Forall₂ Accepted (m :: delivered l) (decryptMessage aes r _ _ :: exchange aes _ _ l)
      rw [hc]
      refine List.Forall₂.cons ha ?_
      refine ih 0 (getTxIv s) _ ⟨h.key, Nat.le_refl _, Nat.le_refl _⟩ (by omega) hl
        fun b c e' hb => ?_
      rw [Nat.zero_add]
      exact hl [] b c e' hb

/-- both parties start from the same IV, with its highest byte cleared -/
theorem setKey_ahead (big big' : Bool) (skey : List UInt8) (s r : Crypt) :
    Ahead 0 (setKey big skey s) (setKey big' skey r) := ⟨rfl, Nat.le_refl _, Nat.le_refl _⟩

theorem setKey_txIv_lt (big : Bool) (skey : List UInt8) (c : Crypt) :
    (setKey big skey c).txIv.toNat < 2 ^ 24 := by
  show (get32 true (slice skey 32 4) &&& 0x00ffffff).toNat < 2 ^ 24
  rw [UInt32.toNat_and]
  exact Nat.lt_of_le_of_lt Nat.and_le_right (by decide)

theorem exchange_delivers {aes : Cipher} (hi : aes.Inverts) (big big' : Bool) (skey : List UInt8)
    (s r : Crypt) (l : List (Message × Bool)) (hl : l.length < 2 ^ 29) (hloss : LossAtMost 31 l) :
    List.Forall₂ Accepted (delivered l)
      (exchange aes (setKey big skey s) (setKey big' skey r) l) := by
  have hs := setKey_txIv_lt big skey s
  refine exchange_accepts hi l 0 _ _ (setKey_ahead big big' skey s r) (by omega) hloss
    fun b c e hb => ?_
  rw [Nat.zero_add]
  exact hloss [] b c e hb

/-! ## known blocks -/

def swapBlock (b : List UInt8) (p : List UInt8 × List UInt8) : List UInt8 :=
  if b = p.1 then p.2 else if b = p.2 then p.1 else b

theorem swapBlock_swapBlock (b : List UInt8) (p : List UInt8 × List UInt8) :
    swapBlock (swapBlock b p) p = b := by
  unfold swapBlock
  split_ifs <;> simp_all

theorem swapBlock_length {p : List UInt8 × List UInt8} (hp : p.1.length = 16 ∧ p.2.length = 16)
    {b : List UInt8} (hb : b.length = 16) : (swapBlock b p).length = 16 := by
  unfold swapBlock
  split_ifs
  exacts [hp.2, hp.1, hb]

/-- a cipher with the blocks of a table, which it exchanges with their images -/
def tableCipher (t : List (List UInt8 × List UInt8))
    (h : ∀ p ∈ t, p.1.length = 16 ∧ p.2.length = 16) : Cipher where
  encrypt _ b := t.foldl swapBlock b
  decrypt _ b := t.foldr (fun p b => swapBlock b p) b
  encrypt_length _ b hb := by
    induction t generalizing b with
    | nil => exact hb
    | cons p t ih =>
      exact ih (fun q hq => h q (List.mem_cons_of_mem _ hq)) _
        (swapBlock_length (h p List.mem_cons_self) hb)
  decrypt_length _ b hb := by
    induction t with
    | nil => exact hb
    | cons p t ih =>
      exact swapBlock_length (h p List.mem_cons_self) (ih fun q hq => h q (List.mem_cons_of_mem _ hq))

theorem tableCipher_inverts (t : List (List UInt8 × List UInt8)) (h) : (tableCipher t h).Inverts := by
  intro key b hb
  show t.foldr (fun p b => swapBlock b p) (t.foldl swapBlock b) = b
  induction t generalizing b with
  | nil => rfl
  | cons p t ih =>
    rw [List.foldl_cons, List.foldr_cons, ih (fun q hq => h q (List.mem_cons_of_mem _ hq)) _
      (swapBlock_length (h p List.mem_cons_self) hb), swapBlock_swapBlock]

/-- AES under the key of zeros on the blocks of the first message, the command `id` -/
def aesFirst : Cipher := tableCipher
  [([248, 120, 71, 196, 210, 52, 130, 222, 71, 212, 115, 15, 34, 136, 186, 112],
    [62, 28, 126, 250, 234, 129, 236, 167, 6, 128, 206, 50, 136, 97, 138, 125]),
   ([122, 195, 225, 107, 0, 0, 0, 1, 33, 0, 0, 10, 105, 100, 0, 0],
    [241, 1, 181, 230, 204, 169, 168, 41, 46, 132, 91, 55, 146, 174, 102, 156]),
   (List.replicate 16 0, [102, 233, 75, 212, 239, 138, 44, 59, 136, 76, 250, 89, 202, 52, 43, 46])]
  (by decide)

/-- the command `id`, as the client builds it -/
def firstMessage : Message where
  buf := List.replicate 25 0 ++ ([0, 0, 10, 105, 100, 0] ++ List.replicate 33 0)
  len := 6
  short := by decide
  room := by decide

/-- one of two blocks -/
def longMessage : Message where
  buf := List.replicate 25 0 ++ List.replicate 167 65
  len := 100
  short := by decide
  room := by
    rw [List.length_append, List.length_replicate, List.length_replicate]
    decide

/-- with AES; two messages in a row are lost -/
theorem exchange_delivers_lossy :
    List.Forall₂ Accepted [firstMessage, longMessage, firstMessage] (exchange Aes.rijndael
        (setKey true (List.replicate 40 0) ⟨[], 0, 0, 0, 0⟩)
        (setKey false (List.replicate 40 0) ⟨[], 7, 7, 7, 7⟩)
        [(firstMessage, true), (longMessage, false), (firstMessage, false), (longMessage, true),
          (firstMessage, true)]) :=
  exchange_delivers (fun _ _ h => Aes.rijndaelDecrypt_rijndaelEncrypt _ h) true false (List.replicate 40 0)
    ⟨[], 0, 0, 0, 0⟩ ⟨[], 7, 7, 7, 7⟩ [(firstMessage, true), (longMessage, false), (firstMessage, false),
      (longMessage, true), (firstMessage, true)] (by decide) (by
      intro a b c e _
      have hl := congrArg List.length e
      rw [List.length_append, List.length_append] at hl
      have h5 : a.length + (b.length + c.length) = 5 := hl.symm
      omega)

end Ead
