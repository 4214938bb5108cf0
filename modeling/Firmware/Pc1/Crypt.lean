import Mathlib.Data.List.Basic

/-!
# pc1crypt

The PC1 stream cipher.  The 16 key bytes are mixed with every byte of the plain text, so the key
stream depends on all of it; `pc1_encrypt` mixes before it encrypts, `pc1_decrypt` after it has
decrypted.  The arithmetic is that of `unsigned short`: no product reaches 2^31.

* `code`, `assemble`   one step and one byte of the key stream; `none` is an index outside `x1a0`;
* `encrypt`, `decrypt`, and both for a buffer and for a sequence of buffers;
* `decryptChunks_encryptChunks`   decryption undoes encryption, with the same context on both
                                  sides after every byte.
-/

set_option linter.unusedVariables false

namespace Pc1

/-- `struct pc1_ctx` without `c`, which is not used -/
structure Ctx where
  ax : UInt16
  bx : UInt16
  cx : UInt16
  dx : UInt16
  si : UInt16
  tmp : UInt16
  x1a2 : UInt16
  x1a0 : Nat → UInt16
  res : UInt16
  i : UInt16
  inter : UInt16
  cfc : UInt16
  cfd : UInt16
  compte : UInt16
  cle : Nat → UInt8

/-! ## the key stream -/

/-- `pc1_code`; `x1a0` has 8 entries -/
def code (p : Ctx) : Option Ctx :=
  if p.i.toNat < 8 then
    let p := { p with dx := p.x1a2 + p.i, ax := p.x1a0 p.i.toNat, cx := 0x015a, bx := 0x4e35 }
    let p := { p with tmp := p.ax, ax := p.si, si := p.ax }
    let p := { p with tmp := p.ax, ax := p.dx, dx := p.ax }
    let p := if p.ax ≠ 0 then { p with ax := p.ax * p.bx } else p
    let p := { p with tmp := p.ax, ax := p.cx, cx := p.ax }
    let p := if p.ax ≠ 0 then { p with ax := p.ax * p.si, cx := p.ax * p.si + p.cx } else p
    let p := { p with tmp := p.ax, ax := p.si, si := p.ax }
    let p := { p with ax := p.ax * p.bx }
    let p := { p with dx := p.cx + p.dx }
    let p := { p with ax := p.ax + 1 }
    let p := { p with x1a2 := p.dx, x1a0 := fun k => if k = p.i.toNat then p.ax else p.x1a0 k }
    some { p with res := p.ax ^^^ p.dx, i := p.i + 1 }
  else none

/-- two key bytes as a number -/
def keyWord (p : Ctx) (j : Nat) : UInt16 :=
  (p.cle (2 * j)).toUInt16 * 256 + (p.cle (2 * j + 1)).toUInt16

/-- round `j` of `pc1_assemble` -/
def round (p : Ctx) (j : Nat) : Option Ctx :=
  let x := if j = 0 then keyWord p j else p.x1a0 (j - 1) ^^^ keyWord p j
  (code { p with x1a0 := fun k => if k = j then x else p.x1a0 k }).map fun p =>
    { p with inter := if j = 0 then p.res else p.inter ^^^ p.res }

def rounds (p : Ctx) : Nat → Option Ctx
  | 0 => some p
  | j + 1 => (rounds p j).bind fun p => round p j

def assemble (p : Ctx) : Option Ctx := (rounds p 8).map fun p => { p with i := 0 }

/-! ## the cipher -/

/-- a `short` is mixed with the key bytes -/
def mixKey (p : Ctx) (c : UInt16) : Ctx :=
  { p with
    cle := fun k => if k < 16 then ((p.cle k).toUInt16 ^^^ c).toUInt8 else p.cle k
    compte := 16 }

/-- `cfc ^ cfd` is the random byte -/
def split (p : Ctx) : Ctx := { p with cfc := p.inter >>> 8, cfd := p.inter &&& 255 }

def decrypt (p : Ctx) (c : UInt16) : Option (Ctx × UInt8) :=
  (assemble p).map fun p =>
    let p := split p
    let c := c ^^^ (p.cfc ^^^ p.cfd)
    (mixKey p c, c.toUInt8)

def encrypt (p : Ctx) (c : UInt16) : Option (Ctx × UInt8) :=
  (assemble p).map fun p =>
    let p := mixKey (split p) c
    (p, (c ^^^ (p.cfc ^^^ p.cfd)).toUInt8)

/-- "Remsaalps!123456" -/
def key : List UInt8 :=
  [0x52, 0x65, 0x6d, 0x73, 0x61, 0x61, 0x6c, 0x70, 0x73, 0x21, 0x31, 0x32, 0x33, 0x34, 0x35, 0x36]

def init : Ctx :=
  ⟨0, 0, 0, 0, 0, 0, 0, fun _ => 0, 0, 0, 0, 0, 0, 0, fun k => key.getD k 0⟩

/-- a loop over the bytes of a buffer -/
def mapBuf (f : Ctx → UInt16 → Option (Ctx × UInt8)) (p : Ctx) :
    List UInt8 → Option (Ctx × List UInt8)
  | [] => some (p, [])
  | b :: buf => (f p b.toUInt16).bind fun (p, b) => (mapBuf f p buf).map fun (p, l) => (p, b :: l)

def decryptBuf : Ctx → List UInt8 → Option (Ctx × List UInt8) := mapBuf decrypt
def encryptBuf : Ctx → List UInt8 → Option (Ctx × List UInt8) := mapBuf encrypt

/-- one call after the other -/
def mapChunks (f : Ctx → UInt16 → Option (Ctx × UInt8)) (p : Ctx) :
    List (List UInt8) → Option (Ctx × List (List UInt8))
  | [] => some (p, [])
  | buf :: l => (mapBuf f p buf).bind fun (p, buf) => (mapChunks f p l).map fun (p, l) => (p, buf :: l)

def decryptChunks : Ctx → List (List UInt8) → Option (Ctx × List (List UInt8)) := mapChunks decrypt
def encryptChunks : Ctx → List (List UInt8) → Option (Ctx × List (List UInt8)) := mapChunks encrypt

/-! ## one byte -/

/-- `pc1_code` moves `i` to the next entry -/
theorem code_i {p : Ctx} {j : Nat} (hj : j < 8) (h : p.i.toNat = j) :
    ∃ p', code p = some p' ∧ p'.i.toNat = j + 1 := by
  unfold code
  rw [if_pos (by omega)]
  refine ⟨_, rfl, ?_⟩
  have hi : (p.i + 1).toNat = j + 1 := by
    rw [UInt16.toNat_add, h]
    show (j + 1) % 65536 = j + 1
    omega
  split <;> split <;> exact hi

theorem round_i {p : Ctx} {j : Nat} (hj : j < 8) (h : p.i.toNat = j) :
    ∃ p', round p j = some p' ∧ p'.i.toNat = j + 1 := by
  have hx (x : Nat → UInt16) : ∃ p', code { p with x1a0 := x } = some p' ∧ p'.i.toNat = j + 1 :=
    code_i hj h
  obtain ⟨p', hp', hi⟩ := hx fun k =>
    if k = j then if j = 0 then keyWord p j else p.x1a0 (j - 1) ^^^ keyWord p j else p.x1a0 k
  exact ⟨{ p' with inter := if j = 0 then p'.res else p'.inter ^^^ p'.res },
    congrArg (Option.map _) hp', hi⟩

theorem rounds_i {p : Ctx} (h : p.i = 0) {j : Nat} (hj : j ≤ 8) :
    ∃ p', rounds p j = some p' ∧ p'.i.toNat = j := by
  induction j with
  | zero => exact ⟨p, rfl, by rw [h]; rfl⟩
  | succ j ih =>
    obtain ⟨p', hp', hi⟩ := ih (by omega)
    obtain ⟨p'', hp'', hi'⟩ := round_i hj hi
    exact ⟨p'', by rw [rounds, hp', Option.bind_some, hp''], hi'⟩

/-- from a context between two bytes `pc1_assemble` stays inside `x1a0` -/
theorem assemble_ok {p : Ctx} (h : p.i = 0) : ∃ p', assemble p = some p' ∧ p'.i = 0 := by
  obtain ⟨p', hp', -⟩ := rounds_i h (Nat.le_refl 8)
  exact ⟨{ p' with i := 0 }, congrArg (Option.map _) hp', rfl⟩

/-- only the low byte is mixed with the key -/
theorem mixKey_congr {p : Ctx} {c c' : UInt16} (h : c.toUInt8 = c'.toUInt8) :
    mixKey p c = mixKey p c' := by
  unfold mixKey
  simp only [UInt16.toUInt8_xor, h]

theorem encrypt_ok {p : Ctx} (h : p.i = 0) (c : UInt16) :
    ∃ p' e, encrypt p c = some (p', e) ∧ p'.i = 0 := by
  obtain ⟨p', hp', hi⟩ := assemble_ok h
  exact ⟨_, _, congrArg (Option.map _) hp', hi⟩

/-- one byte there and back: the byte, and the same context -/
theorem decrypt_encrypt_byte {p p' : Ctx} {b e : UInt8}
    (h : encrypt p b.toUInt16 = some (p', e)) : decrypt p e.toUInt16 = some (p', b) := by
  unfold encrypt at h
  obtain ⟨q, hq, hres⟩ := Option.map_eq_some_iff.mp h
  obtain ⟨rfl, rfl⟩ := Prod.mk.inj hres
  unfold decrypt
  rw [hq, Option.map_some]
  have hb : ((b.toUInt16 ^^^ ((split q).cfc ^^^ (split q).cfd)).toUInt8.toUInt16 ^^^
      ((split q).cfc ^^^ (split q).cfd)).toUInt8 = b := by
    simp only [UInt16.toUInt8_xor, UInt8.toUInt8_toUInt16]
    rw [UInt8.xor_assoc, UInt8.xor_self, UInt8.xor_zero]
  have hkey : mixKey (split q) ((b.toUInt16 ^^^ ((split q).cfc ^^^ (split q).cfd)).toUInt8.toUInt16 ^^^
      ((split q).cfc ^^^ (split q).cfd)) = mixKey (split q) b.toUInt16 :=
    mixKey_congr (hb.trans (UInt8.toUInt8_toUInt16 b).symm)
  exact congrArg some (Prod.ext hkey hb)

/-! ## buffers -/

theorem mapBuf_append (f : Ctx → UInt16 → Option (Ctx × UInt8)) (p : Ctx) (l l' : List UInt8) :
    mapBuf f p (l ++ l') = (mapBuf f p l).bind fun (q, a) =>
      (mapBuf f q l').map fun (q, b) => (q, a ++ b) := by
  induction l generalizing p with
  | nil =>
    show mapBuf f p l' = (mapBuf f p l').map fun (q, b) => (q, [] ++ b)
    simp
  | cons b l ih =>
    rw [List.cons_append, mapBuf, mapBuf]
    cases f p b.toUInt16 with
    | none => rfl
    | some r =>
      simp only [Option.bind_some]
      rw [ih]
      cases mapBuf f r.1 l with
      | none => rfl
      | some r' =>
        simp only [Option.bind_some, Option.map_some]
        cases mapBuf f r'.1 l' <;> rfl

/-- however the text is cut into buffers -/
theorem mapChunks_flatten (f : Ctx → UInt16 → Option (Ctx × UInt8)) (p : Ctx)
    (l : List (List UInt8)) : (mapChunks f p l).map (fun (q, l) => (q, l.flatten)) =
      mapBuf f p l.flatten := by
  induction l generalizing p with
  | nil => rfl
  | cons buf l ih =>
    rw [mapChunks, List.flatten_cons, mapBuf_append]
    cases mapBuf f p buf with
    | none => rfl
    | some r =>
      simp only [Option.bind_some]
      rw [← ih]
      cases mapChunks f r.1 l <;> rfl

theorem encryptBuf_ok {p : Ctx} (h : p.i = 0) (l : List UInt8) :
    ∃ q e, encryptBuf p l = some (q, e) := by
  induction l generalizing p with
  | nil => exact ⟨p, [], rfl⟩
  | cons b l ih =>
    obtain ⟨p', e, hp', hi⟩ := encrypt_ok h b.toUInt16
    obtain ⟨q, es, hq⟩ := ih hi
    refine ⟨q, e :: es, ?_⟩
    show (encrypt p b.toUInt16).bind _ = _
    rw [hp', Option.bind_some]
    exact congrArg (Option.map _) hq

/-- a buffer there and back -/
theorem decryptBuf_encryptBuf {p q : Ctx} {l e : List UInt8} (h : encryptBuf p l = some (q, e)) :
    decryptBuf p e = some (q, l) := by
  induction l generalizing p e with
  | nil =>
    cases h
    rfl
  | cons b l ih =>
    obtain ⟨⟨p', x⟩, hx, h⟩ := Option.bind_eq_some_iff.mp h
    obtain ⟨⟨q', xs⟩, hxs, h⟩ := Option.map_eq_some_iff.mp h
    cases h
    show (decrypt p x.toUInt16).bind _ = _
    rw [decrypt_encrypt_byte hx, Option.bind_some]
    exact congrArg (Option.map _) (ih hxs)

/-- a buffer cut in two -/
theorem encryptBuf_take {p q : Ctx} {l e : List UInt8} (h : encryptBuf p l = some (q, e)) (n : Nat) :
    ∃ r, encryptBuf p (l.take n) = some (r, e.take n) := by
  induction l generalizing p e n with
  | nil =>
    cases h
    exact ⟨q, by simp [encryptBuf, mapBuf]⟩
  | cons b l ih =>
    obtain ⟨⟨p', x⟩, hx, h⟩ := Option.bind_eq_some_iff.mp h
    obtain ⟨⟨q', xs⟩, hxs, h⟩ := Option.map_eq_some_iff.mp h
    cases h
    cases n with
    | zero => exact ⟨p, rfl⟩
    | succ n =>
      obtain ⟨r, hr⟩ := ih hxs n
      refine ⟨r, ?_⟩
      show (encrypt p b.toUInt16).bind _ = _
      rw [hx, Option.bind_some]
      exact congrArg (Option.map _) hr

/-- **Decryption undoes encryption**, however both are cut into buffers, and after every byte the
two contexts are the same. -/
theorem decryptChunks_encryptChunks (text : List (List UInt8)) : ∃ p cipher,
    encryptChunks init text = some (p, cipher) ∧
    (∀ bufs : List (List UInt8), bufs.flatten = cipher.flatten → ∃ out,
      decryptChunks init bufs = some (p, out) ∧ out.flatten = text.flatten) ∧
    ∀ n, ∃ q, encryptBuf init (text.flatten.take n) = some (q, cipher.flatten.take n) ∧
      decryptBuf init (cipher.flatten.take n) = some (q, text.flatten.take n) := by
  have hi : init.i = 0 := rfl
  obtain ⟨p, e, he⟩ := encryptBuf_ok hi text.flatten
  have hflat := mapChunks_flatten encrypt init text
  obtain ⟨⟨p', cipher⟩, hc, hres⟩ := Option.map_eq_some_iff.mp (hflat.trans he)
  obtain ⟨rfl, rfl⟩ := Prod.mk.inj hres
  refine ⟨p', cipher, hc, fun bufs hbufs => ?_, fun n => ?_⟩
  · have hdec := decryptBuf_encryptBuf he
    rw [← hbufs] at hdec
    obtain ⟨⟨q, out⟩, hout, hres⟩ :=
      Option.map_eq_some_iff.mp ((mapChunks_flatten decrypt init bufs).trans hdec)
    obtain ⟨rfl, hflat'⟩ := Prod.mk.inj hres
    exact ⟨out, hout, hflat'⟩
  · obtain ⟨q, hq⟩ := encryptBuf_take he n
    exact ⟨q, hq, decryptBuf_encryptBuf hq⟩

/-- "Hi!" in two buffers and back in two others -/
example : ((encryptChunks init [[72], [105, 33]]).bind fun r =>
    (decryptChunks init [r.2.flatten.take 2, r.2.flatten.drop 2]).map fun r => r.2) =
      some [[72, 105], [33]] := by decide +kernel

end Pc1
