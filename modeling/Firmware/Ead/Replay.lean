import Firmware.Ead.Crypt

/-!
# ead: the receive counter

What one call of `ead_decrypt_message` does to `ead_rx_iv`, and a run of calls with one key.

* `decrypt_cases`   the counter stays, or it becomes the IV of the message, which is larger;
* `receive`         the messages that are received, with the state before each of them;
* `no_replay`       the counter never decreases, and no IV is accepted twice;
* `clean_iff`       when a message that is not accepted leaves no trace.
-/

set_option linter.unusedVariables false

namespace Ead
open Img Word

/-! ## one message -/

theorem checkRxIv_eq_some {c c' : Crypt} {iv : UInt32} : checkRxIv c iv = some c' ↔
    c.rxIv < iv ∧ iv ≤ c.rxIv + maxIvIncr ∧ c' = { c with rxIv := iv } := by
  unfold checkRxIv
  split
  · next h => simp [h]
  · next h =>
    split
    · next h' => simp [h']
    · next h' =>
      rw [Option.some_inj]
      exact ⟨fun e => ⟨UInt32.not_le.mp h, UInt32.not_lt.mp h', e.symm⟩, fun e => e.2.2.symm⟩

theorem decrypt_cases (aes : Cipher) (c : Crypt) (len : UInt32) (body : List UInt8) :
    ((decryptMessage aes c len body).crypt = c ∧ (decryptMessage aes c len body).verified = false ∧
      (decryptMessage aes c len body).ret = 0) ∨
    ∃ iv, iv = ivOf (plainOf aes c.key (toInt len) body) ∧ (toInt len).tmod encPad ≤ 0 ∧
      c.rxIv < iv ∧ iv ≤ c.rxIv + maxIvIncr ∧
      (decryptMessage aes c len body).crypt = { c with rxIv := iv } := by
  unfold decryptMessage
  simp only
  split
  · exact Or.inl ⟨rfl, rfl, rfl⟩
  next hn =>
  split
  · exact Or.inl ⟨rfl, rfl, rfl⟩
  split
  · exact Or.inl ⟨rfl, rfl, rfl⟩
  next c' hc =>
  obtain ⟨h1, h2, rfl⟩ := checkRxIv_eq_some.mp hc
  refine Or.inr ⟨_, rfl, by omega, h1, h2, ?_⟩
  split <;> rfl

theorem decrypt_key (aes : Cipher) (c : Crypt) (len : UInt32) (body : List UInt8) :
    (decryptMessage aes c len body).crypt.key = c.key := by
  obtain ⟨h, _⟩ | ⟨iv, _, _, _, _, h⟩ := decrypt_cases aes c len body <;> rw [h]

/-- the bytes that make up the message -/
def textOf (len : UInt32) (body : List UInt8) : List UInt8 := body.take (max (toInt len).toNat encSize)

/-- the IV is one of the message's own bytes, decrypted -/
theorem ivOf_text (aes : Cipher) (key : List UInt8) (len : UInt32) (body : List UInt8)
    (h : (toInt len).tmod encPad ≤ 0) :
    ivOf (plainOf aes key (toInt len) body) = ivOf (plainOf aes key (toInt len) (textOf len body)) := by
  by_cases hb : body.length ≤ max (toInt len).toNat encSize
  · rw [textOf, List.take_of_length_le hb]
  have hl : (textOf len body).length = max (toInt len).toNat encSize := by
    rw [textOf, List.length_take]
    omega
  have hs : body = textOf len body ++ body.drop (max (toInt len).toNat encSize) :=
    (List.take_append_drop _ _).symm
  unfold ivOf plainOf
  by_cases hn : 0 < toInt len
  · have hd : ((64 : Nat) : Int) ∣ toInt len :=
      Int.dvd_of_tmod_eq_zero (le_antisymm h (Int.tmod_nonneg _ (by omega)))
    obtain ⟨q, hq⟩ := hd
    have h16 : (textOf len body).length = 16 * (((toInt len).toNat + 15) / 16) := by
      rw [hl]
      simp only [encSize]
      omega
    have hm := mapBlocks_length (f := aes.decrypt key) (aes.decrypt_length key)
      (((toInt len).toNat + 15) / 16) (textOf len body) (by omega)
    conv_lhs => rw [hs, mapBlocks_append _ _ _ h16]
    rw [slice_append_left _ _ _ _ (by rw [hm, hl]; simp only [encSize]; omega)]
  · have h0 : ((toInt len).toNat + 15) / 16 = 0 := by omega
    rw [h0]
    show get32 true (slice body 20 4) = get32 true (slice (textOf len body) 20 4)
    conv_lhs => rw [hs]
    rw [slice_append_left _ _ _ _ (by rw [hl]; simp only [encSize]; omega)]

/-! ## a run -/

inductive Op where
  | receive (len : UInt32) (body : List UInt8)
  | send (body : List UInt8) (len : Nat)

/-- a call of `ead_decrypt_message` -/
structure Received where
  before : Crypt
  len : UInt32
  body : List UInt8

def Received.result (aes : Cipher) (x : Received) : Decrypted := decryptMessage aes x.before x.len x.body

/-- the decrypted IV -/
def Received.iv (aes : Cipher) (x : Received) : UInt32 := ivOf (plainOf aes x.before.key (toInt x.len) x.body)

def Received.text (x : Received) : List UInt8 := textOf x.len x.body

/-- the messages received in a run of calls without a new key -/
def receive (aes : Cipher) : Crypt → List Op → List Received
  | _, [] => []
  | c, .send body len :: l => receive aes (encryptMessage aes c body len).crypt l
  | c, .receive len body :: l => ⟨c, len, body⟩ :: receive aes (decryptMessage aes c len body).crypt l

theorem result_rxIv (aes : Cipher) (x : Received) : x.before.rxIv ≤ (x.result aes).crypt.rxIv := by
  obtain ⟨h, _⟩ | ⟨iv, _, _, h1, _, h⟩ := decrypt_cases aes x.before x.len x.body
  · rw [Received.result, h]
    exact UInt32.le_refl _
  · rw [Received.result, h]
    exact UInt32.le_of_lt h1

theorem result_verified (aes : Cipher) (x : Received) (hv : (x.result aes).verified = true) :
    x.before.rxIv < x.iv aes ∧ (x.result aes).crypt.rxIv = x.iv aes ∧
      (toInt x.len).tmod encPad ≤ 0 := by
  obtain ⟨_, h, _⟩ | ⟨iv, hiv, hm, h1, _, h⟩ := decrypt_cases aes x.before x.len x.body
  · rw [Received.result, h] at hv
    cases hv
  · rw [Received.result, h]
    subst hiv
    exact ⟨h1, rfl, hm⟩

/-- what a run keeps: the key, and a counter that has not gone below where it was -/
theorem receive_mem {aes : Cipher} {c : Crypt} {ops : List Op} {x : Received}
    (h : x ∈ receive aes c ops) : x.before.key = c.key ∧ c.rxIv ≤ x.before.rxIv := by
  induction ops generalizing c with
  | nil => cases h
  | cons op l ih =>
    cases op with
    | send body len =>
      obtain ⟨h1, h2⟩ := ih (c := (encryptMessage aes c body len).crypt) h
      exact ⟨h1, h2⟩
    | receive len body =>
      rcases List.mem_cons.mp h with rfl | h
      · exact ⟨rfl, UInt32.le_refl _⟩
      · obtain ⟨h1, h2⟩ := ih h
        exact ⟨h1.trans (decrypt_key aes c len body),
          UInt32.le_trans (result_rxIv aes ⟨c, len, body⟩) h2⟩

theorem receive_pairwise (aes : Cipher) (c : Crypt) (ops : List Op) :
    (receive aes c ops).Pairwise fun x y =>
      x.before.key = y.before.key ∧ (x.result aes).crypt.rxIv ≤ y.before.rxIv := by
  induction ops generalizing c with
  | nil => exact List.Pairwise.nil
  | cons op l ih =>
    cases op with
    | send body len => exact ih _
    | receive len body =>
      refine List.Pairwise.cons (fun y hy => ?_) (ih _)
      obtain ⟨h1, h2⟩ := receive_mem hy
      exact ⟨(h1.trans (decrypt_key aes c len body)).symm, h2⟩

/-- a message that carries the text of another one carries its IV -/
theorem iv_of_text {aes : Cipher} {x y : Received} (hk : x.before.key = y.before.key)
    (hm : (toInt x.len).tmod encPad ≤ 0) (hl : x.len = y.len) (ht : x.text = y.text) :
    x.iv aes = y.iv aes := by
  unfold Received.iv
  rw [ivOf_text aes _ x.len x.body hm, ivOf_text aes _ y.len y.body (hl ▸ hm), hk, ← hl]
  unfold Received.text at ht
  rw [ht, ← hl]

theorem no_replay (aes : Cipher) (c : Crypt) (ops : List Op) :
    (∀ x ∈ receive aes c ops, x.before.rxIv ≤ (x.result aes).crypt.rxIv ∧
      ((x.result aes).verified = true → x.before.rxIv < (x.result aes).crypt.rxIv)) ∧
    (receive aes c ops).Pairwise fun x y => (x.result aes).crypt.rxIv ≤ y.before.rxIv ∧
      ((x.result aes).verified = true → (y.result aes).verified = true →
        x.iv aes ≠ y.iv aes ∧ ¬ (x.len = y.len ∧ x.text = y.text)) := by
  constructor
  · intro x _
    refine ⟨result_rxIv aes x, fun hv => ?_⟩
    obtain ⟨h1, h2, _⟩ := result_verified aes x hv
    exact h2 ▸ h1
  · refine (receive_pairwise aes c ops).imp fun {x y} h => ⟨h.2, fun hx hy => ?_⟩
    obtain ⟨_, h1, hm⟩ := result_verified aes x hx
    obtain ⟨h2, _, _⟩ := result_verified aes y hy
    have hlt : x.iv aes < y.iv aes := UInt32.lt_of_le_of_lt (h1 ▸ h.2) h2
    have hne : x.iv aes ≠ y.iv aes := UInt32.ne_of_lt hlt
    exact ⟨hne, fun e => hne (iv_of_text h.1 hm e.1 e.2)⟩

/-! ## messages that are not accepted -/

/-- a message that is not accepted leaves the counter, so that what follows is accepted as before,
and the length of an accepted one is in bounds -/
def Clean (aes : Cipher) (c : Crypt) (len : UInt32) (body : List UInt8) : Prop :=
  let d := decryptMessage aes c len body
  (d.verified = false → d.crypt.rxIv = c.rxIv ∧ ∀ len' body',
    (decryptMessage aes d.crypt len' body').verified = (decryptMessage aes c len' body').verified) ∧
  (d.verified = true → 0 ≤ d.ret ∧ d.ret ≤ toInt len)

/-- the length, the padding and the IV of a decrypted message are taken -/
structure Passes (c : Crypt) (n : Int) (plain : List UInt8) : Prop where
  len : ¬ (n = 0 ∨ n.tmod encPad > 0)
  pad : ¬ padOf plain ≥ UInt8.ofNat encPad
  above : c.rxIv < ivOf plain
  window : ivOf plain ≤ c.rxIv + maxIvIncr

section
variable {aes : Cipher} {c : Crypt} {len : UInt32} {body : List UInt8}

theorem decrypt_of_not_passes (h : ¬ Passes c (toInt len) (plainOf aes c.key (toInt len) body)) :
    (decryptMessage aes c len body).crypt = c ∧ (decryptMessage aes c len body).verified = false := by
  unfold decryptMessage
  simp only
  split
  · exact ⟨rfl, rfl⟩
  next hlen =>
  split
  · exact ⟨rfl, rfl⟩
  next hpad =>
  split
  · exact ⟨rfl, rfl⟩
  next c' hc =>
  obtain ⟨h1, h2, -⟩ := checkRxIv_eq_some.mp hc
  exact absurd ⟨hlen, hpad, h1, h2⟩ h

theorem padOf_hashMessage (plain : List UInt8) (n : Nat) :
    padOf (hashMessage plain n).2 = padOf plain := by
  have h : (List.replicate 20 (0 : UInt8) ++ plain.drop 20).getD 24 0 = plain.getD 24 0 := by
    rw [List.getD_eq_getElem?_getD, List.getD_eq_getElem?_getD,
      List.getElem?_append_right (by rw [List.length_replicate]; decide), List.length_replicate,
      List.getElem?_drop]
  exact h

theorem decrypt_of_passes {plain : List UInt8} (hp : plainOf aes c.key (toInt len) body = plain)
    (h : Passes c (toInt len) plain) :
    (decryptMessage aes c len body).crypt = { c with rxIv := ivOf plain } ∧
    ((decryptMessage aes c len body).verified = true ↔
      hashOf plain = (hashMessage plain (toInt len).toNat).1) ∧
    ((decryptMessage aes c len body).verified = true → (decryptMessage aes c len body).ret
      = CInt.wrap (toInt len - ((padOf plain).toNat + encSize))) := by
  have hpad := padOf_hashMessage plain (toInt len).toNat
  unfold decryptMessage
  simp only [hp]
  rw [if_neg h.len, if_neg h.pad, checkRxIv_eq_some.mpr ⟨h.above, h.window, rfl⟩]
  dsimp only
  by_cases hh : hashOf plain ≠ (hashMessage plain (toInt len).toNat).1
  · rw [if_pos hh]
    exact ⟨rfl, ⟨nofun, fun e => absurd e hh⟩, nofun⟩
  · rw [if_neg hh]
    exact ⟨rfl, ⟨fun _ => not_not.mp hh, fun _ => rfl⟩, fun _ => by rw [hpad]⟩

theorem verified_or_ret : (decryptMessage aes c len body).verified = true ∨
    (decryptMessage aes c len body).ret = 0 := by
  unfold decryptMessage
  simp only
  split
  · exact .inr rfl
  split
  · exact .inr rfl
  split
  · exact .inr rfl
  split
  · exact .inr rfl
  · exact .inl rfl

/-- **A message that is not accepted leaves no trace**, and an accepted one has a length in bounds,
exactly if a message whose length, padding and IV are taken has the right hash and is not shorter
than its padding and its header. -/
theorem clean_iff : Clean aes c len body ↔
    (Passes c (toInt len) (plainOf aes c.key (toInt len) body) →
      hashOf (plainOf aes c.key (toInt len) body)
          = (hashMessage (plainOf aes c.key (toInt len) body) (toInt len).toNat).1 ∧
        ((padOf (plainOf aes c.key (toInt len) body)).toNat : Int) + encSize ≤ toInt len) := by
  generalize hp : plainOf aes c.key (toInt len) body = plain
  unfold Clean
  dsimp only
  by_cases h : Passes c (toInt len) plain
  · obtain ⟨hc, hv, hr⟩ := decrypt_of_passes hp h
    have hpad : (padOf plain).toNat < 64 := UInt8.lt_iff_toNat_lt.mp (UInt8.not_le.mp h.pad)
    have hn : -2147483648 ≤ toInt len ∧ toInt len ≤ 2147483647 := by
      have := len.toNat_lt
      unfold toInt
      split <;> omega
    generalize decryptMessage aes c len body = d at hc hv hr ⊢
    rw [forall_prop_of_true h, ← hv]
    cases hd : d.verified with
    | true =>
      -- the difference wraps only where it was far below 0
      have hret : (0 ≤ d.ret ∧ d.ret ≤ toInt len) ↔
          ((padOf plain).toNat : Int) + encSize ≤ toInt len := by
        rw [hr hd]
        unfold CInt.wrap encSize
        omega
      rw [← hret]
      exact ⟨fun hx => ⟨rfl, hx.2 rfl⟩, fun hx => ⟨nofun, fun _ => hx.2⟩⟩
    | false =>
      refine ⟨fun hx => ?_, fun hx => absurd hx.1 nofun⟩
      have hiv := (hx.1 rfl).1
      rw [hc] at hiv
      exact absurd hiv.symm (UInt32.ne_of_lt h.above)
  · obtain ⟨hc, hv⟩ := decrypt_of_not_passes (hp ▸ h)
    rw [hc, hv]
    exact iff_of_true ⟨fun _ => ⟨rfl, fun _ _ => rfl⟩, nofun⟩ fun h' => absurd h' h

end

/-- a length of -1: nothing is decrypted, and the next IV is taken under any key -/
theorem not_clean : ¬ ∃ (aes : Cipher) (key : List UInt8),
    Clean aes ⟨key, 0, 0, 0, 0⟩ 0xffffffff (List.replicate 23 0 ++ [1, 0]) := by
  rintro ⟨aes, key, h⟩
  have hp : Passes ⟨key, 0, 0, 0, 0⟩ (toInt 0xffffffff) (List.replicate 23 0 ++ [1, 0]) :=
    ⟨by decide, by decide, by show (0 : UInt32) < ivOf _; decide, by show ivOf _ ≤ 0 + maxIvIncr; decide⟩
  obtain ⟨hc, hv, -⟩ := @decrypt_of_passes aes ⟨key, 0, 0, 0, 0⟩ 0xffffffff
    (List.replicate 23 0 ++ [1, 0]) (List.replicate 23 0 ++ [1, 0]) rfl hp
  have hfalse : (decryptMessage aes ⟨key, 0, 0, 0, 0⟩ 0xffffffff
      (List.replicate 23 0 ++ [1, 0])).verified = false := by
    rw [← Bool.not_eq_true, hv]
    decide
  have hiv : ivOf (List.replicate 23 0 ++ [1, 0]) = 0 := by
    have := (h.1 hfalse).1
    rwa [hc] at this
  exact absurd hiv (by decide)

end Ead
