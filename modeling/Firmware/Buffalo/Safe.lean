import Firmware.Lib.Exits
import Firmware.Buffalo.RoundTrip

/-!
# buffalo-enc: decryption of any file

`decrypt_buf` on every byte string: the memory is what it was given, `datalen` bytes, and an access
outside of it is none of the results.

* `Host`            the width of `ssize_t`, and `remain < len` on such a host;
* `decryptBufOn`    `decrypt_buf` with the signed counter, and with the state in which it leaves;
* `decryptFile_same`  as long as a `ssize_t` can count the data, it ends as `decryptBuf` does;
* `decryptFile_safe`  no access outside the data or the fields, and the checksum at the end.
-/

set_option linter.unusedVariables false

namespace Buffalo
open Img Word Exits

/-- the width of `ssize_t` -/
structure Host where
  ssize64 : Bool

def Host.bits (h : Host) : Nat := if h.ssize64 then 64 else 32

/-- a number in a `ssize_t` -/
def Host.ssize (h : Host) (x : Int) : Int :=
  (x + 2 ^ (h.bits - 1)) % 2 ^ h.bits - 2 ^ (h.bits - 1)

/-- the left side of `remain < len`: a 32-bit `ssize_t` becomes an `unsigned int` -/
def Host.left (h : Host) (remain : Int) : Int :=
  if h.ssize64 then remain else remain % 2 ^ 32

/-- the parameters, the data, `p` as an index of it, and `remain` -/
structure State where
  ep : EncParam
  data : List UInt8
  p : Nat
  remain : Int

/-- `CHECKLEN` -/
def checklen (h : Host) (len : Nat) : Exit State Unit := do
  let s ← get
  guard (len ≤ h.left s.remain)

/-- `len` bytes at `p` -/
def bytes (len : Nat) : Exit State (List UInt8) := do
  let s ← get
  access (load s.data s.p len)

def State.skip (h : Host) (len : Nat) (s : State) : State :=
  { s with p := s.p + len, remain := h.ssize (s.remain - len) }

/-- `INCP` -/
def incp (h : Host) (len : Nat) : Exit State Unit := update (State.skip h len)

def setEp (g : EncParam → EncParam) : Exit State Unit := update fun s => { s with ep := g s.ep }

/-- `bcrypt_buf` on one memory -/
def crypted (malloc : Nat → Bool) (seed : UInt8) (key : CStr) (mem : List UInt8) (src dst len : Nat)
    (longstate : Bool) : Exit State (List UInt8) :=
  match bcryptBuf malloc seed key mem src dst len longstate with
  | .ok mem => pure mem
  | .error .out => leave
  | .error .ub => access none

/-- the magic and the seed -/
def takeHeader (h : Host) : Exit State Unit := do
  checklen h encMagicLen
  let magic ← bytes encMagicLen
  guard (checkMagic magic)
  setEp fun ep => { ep with magic := magic }
  incp h encMagicLen
  checklen h 1
  let seed ← bytes 1
  setEp fun ep => { ep with seed := seed.getD 0 0 }
  incp h 1

/-- the length of a field -/
def takeLen (h : Host) (max : Nat) : Exit State Nat := do
  checklen h 4
  let w ← bytes 4
  let len := (get32 true w).toNat
  guard (len ≤ max)
  incp h 4
  pure len

def takeProduct (h : Host) (prodLen : Nat) : Exit State Unit := do
  checklen h prodLen
  let d ← bytes prodLen
  let s ← get
  let product ← access (store s.ep.product 0 d)
  setEp fun ep => { ep with product := product }
  incp h prodLen

def takeVersion (h : Host) (verLen : Nat) : Exit State Unit := do
  checklen h verLen
  let d ← bytes verLen
  let s ← get
  let version ← access (store s.ep.version 0 d)
  setEp fun ep => { ep with version := version }
  incp h verLen

/-- the data and the checksum -/
def takeData (h : Host) (malloc : Nat → Bool) : Exit State Unit := do
  checklen h 4
  let w ← bytes 4
  let len := get32 true w
  setEp fun ep => { ep with datalen := len }
  incp h 4
  checklen h len.toNat
  let s ← get
  let data ← crypted malloc (s.ep.version.getD 0 0) s.ep.key s.data s.p 0 len.toNat s.ep.longstate
  update fun s => { s with data := data }
  incp h len.toNat
  checklen h 4
  let w ← bytes 4
  setEp fun ep => { ep with csum := get32 true w }
  incp h 4
  let s ← get
  let d ← access (load s.data 0 len.toNat)
  guard (buffaloCsum len d = s.ep.csum)

def decryptBufOn (h : Host) (malloc : Nat → Bool) : Exit State Unit := do
  takeHeader h
  let prodLen ← takeLen h encProductLen
  takeProduct h prodLen
  let verLen ← takeLen h encVersionLen
  takeVersion h verLen
  takeData h malloc
  let s ← get
  let version ← crypted malloc (s.ep.product.getD 0 0) s.ep.key s.ep.version 0 0 verLen s.ep.longstate
  setEp fun ep => { ep with version := version }
  let s ← get
  let product ← crypted malloc s.ep.seed s.ep.key s.ep.product 0 0 prodLen s.ep.longstate
  setEp fun ep => { ep with product := product }

/-- `decrypt_buf` with the `datalen` bytes of `data` -/
def decryptFile (h : Host) (malloc : Nat → Bool) (ep : EncParam) (data : List UInt8) :
    Option (Option Unit × State) :=
  decryptBufOn h malloc ⟨ep, data, 0, h.ssize data.length⟩

/-! ## the counter -/

/-- what is left is inside the data -/
def State.Inside (h : Host) (s : State) : Prop := s.p + h.left s.remain ≤ s.data.length

theorem left_ssize_le (h : Host) {x : Int} (hx : 0 ≤ x) : h.left (h.ssize x) ≤ x := by
  unfold Host.left Host.ssize Host.bits
  split <;> omega

theorem left_sub (h : Host) {r : Int} {len : Nat} (hlen : (len : Int) ≤ h.left r) :
    h.left (h.ssize (r - len)) ≤ h.left r - len := by
  unfold Host.left Host.ssize Host.bits at *
  split <;> simp_all <;> omega

theorem Inside.start (h : Host) (ep : EncParam) (data : List UInt8) :
    State.Inside h ⟨ep, data, 0, h.ssize data.length⟩ := by
  have := left_ssize_le h (Int.natCast_nonneg data.length)
  unfold State.Inside
  simp only
  omega

section
variable {h : Host} {s : State} {α : Type} {L : Option α → State → Prop}

theorem meets_checklen {len : Nat} {f : Unit → Exit State α} (hleave : L none s)
    (hnext : (len : Int) ≤ h.left s.remain → Meets (f ()) s L) : Meets (checklen h len >>= f) s L := by
  show Meets (guard (decide ((len : Int) ≤ h.left s.remain)) >>= f) s L
  exact Meets.guard (fun _ => hleave) fun hc => hnext (of_decide_eq_true hc)

theorem meets_bytes {len : Nat} {f : List UInt8 → Exit State α} (hin : s.p + len ≤ s.data.length)
    (hnext : Meets (f (slice s.data s.p len)) s L) : Meets (bytes len >>= f) s L := by
  show Meets (access (load s.data s.p len) >>= f) s L
  exact Meets.access (load_eq_some.mpr ⟨hin, rfl⟩) hnext

theorem meets_crypted {malloc : Nat → Bool} {seed : UInt8} {key : CStr} {mem : List UInt8}
    {src dst len : Nat} {longstate : Bool} {f : List UInt8 → Exit State α} (hkey : key.length ≤ 254)
    (hle : dst ≤ src) (hin : src + len ≤ mem.length) (hleave : L none s)
    (hnext : Meets (f (poke mem dst (crypt seed key longstate (slice mem src len)))) s L) :
    Meets (crypted malloc seed key mem src dst len longstate >>= f) s L := by
  have hle254 : ¬key.length > bcryptMaxKeylen := Nat.not_lt.mpr hkey
  unfold crypted
  cases hm : malloc (if longstate then len else bcryptDefaultStateLen) with
  | false =>
    have hrun : bcryptBuf malloc seed key mem src dst len longstate = .error .out := by
      unfold bcryptBuf
      simp only [hm, if_neg hle254]
      rfl
    rw [hrun]
    exact ⟨none, s, rfl, hleave⟩
  | true =>
    have hrun : bcryptBuf malloc seed key mem src dst len longstate
        = .ok (poke mem dst (crypt seed key longstate (slice mem src len))) := by
      unfold bcryptBuf crypt stream
      simp only [hm, if_neg hle254, bcryptProcess_eq len _ mem src dst hle hin, slice_length _ _ _ hin]
      rfl
    rw [hrun]
    exact hnext

end

/-! ## both models of `decrypt_buf` -/

/-- the data fit a `ssize_t`, and what is left are the data from `p` on -/
structure Cur.On (h : Host) (mem : List UInt8) (c : Cur) : Prop where
  fits : (mem.length : Int) < 2 ^ (h.bits - 1)
  whole : c.p + c.remain = mem.length

abbrev Cur.state (c : Cur) (ep : EncParam) (mem : List UInt8) : State := ⟨ep, mem, c.p, c.remain⟩

def Cur.skip (c : Cur) (len : Nat) : Cur := ⟨c.p + len, c.remain - len⟩

theorem ssize_natCast (h : Host) {n : Nat} (hn : (n : Int) < 2 ^ (h.bits - 1)) : h.ssize n = n := by
  unfold Host.ssize Host.bits at *
  split at hn
  · next hb =>
    rw [if_pos hb]
    omega
  · next hb =>
    rw [if_neg hb]
    omega

theorem bcryptProcess_length : ∀ (len : Nat) (c : Ctx) (mem : List UInt8) (src dst : Nat)
    (mem' : List UInt8), bcryptProcess len c mem src dst = some mem' → mem'.length = mem.length
  | 0, c, mem, src, dst, mem', h => by rw [Option.some.inj h]
  | len + 1, c, mem, src, dst, mem', h => by
    unfold bcryptProcess at h
    obtain ⟨b, -, h⟩ := Option.bind_eq_some_iff.mp h
    obtain ⟨m, hm, h⟩ := Option.bind_eq_some_iff.mp h
    rw [bcryptProcess_length len _ m _ _ mem' h, store_length hm]

theorem bcryptBuf_length {malloc : Nat → Bool} {seed : UInt8} {key : CStr} {mem mem' : List UInt8}
    {src dst len : Nat} {longstate : Bool}
    (h : bcryptBuf malloc seed key mem src dst len longstate = .ok mem') :
    mem'.length = mem.length := by
  unfold bcryptBuf at h
  extract_lets n at h
  by_cases hk : key.length > bcryptMaxKeylen
  · rw [if_pos hk] at h
    exact absurd h (by simp [safe, bind, Except.bind])
  rw [if_neg hk] at h
  cases hm : malloc n with
  | false =>
    rw [hm] at h
    exact absurd h (by simp [safe, goto, bind, Except.bind])
  | true =>
    rw [hm] at h
    cases hp : bcryptProcess len (bcryptInit (seed :: key.bytes) n) mem src dst with
    | none =>
      rw [hp] at h
      exact absurd h (by simp [safe, goto, bind, Except.bind])
    | some m =>
      rw [hp] at h
      rw [← Except.ok.inj h, bcryptProcess_length _ _ _ _ _ _ hp]

section
variable {h : Host} {mem : List UInt8} {c : Cur} {s : State} {ep : EncParam} {α β : Type}
  {K : α → State → β → Prop}

abbrev Same (r : Option (Option α × State)) (x : Except Halt β) (K : α → State → β → Prop) : Prop :=
  Follows Halt.out Halt.ub K r x

theorem Cur.On.left (hs : c.On h mem) : h.left c.remain = c.remain := by
  have hf := hs.fits
  have hw := hs.whole
  unfold Host.left Host.bits at *
  split
  · rfl
  · next hb =>
    rw [if_neg hb] at hf
    omega

theorem Cur.On.skip (hs : c.On h mem) {len : Nat} (hlen : len ≤ c.remain) :
    (c.skip len).On h mem := by
  have hw := hs.whole
  refine ⟨hs.fits, ?_⟩
  show c.p + len + (c.remain - len) = mem.length
  omega

theorem Cur.On.skip_state (hs : c.On h mem) {len : Nat} (hlen : len ≤ c.remain) :
    (c.state ep mem).skip h len = (c.skip len).state ep mem := by
  have hf := hs.fits
  have hw := hs.whole
  have hsub : (c.remain : Int) - len = ((c.remain - len : Nat) : Int) := by omega
  unfold State.skip Cur.skip Cur.state
  simp only
  rw [hsub, ssize_natCast h (by omega)]

theorem same_goto {b : Bool} {f : Unit → Exit State α} {g : Unit → Except Halt β}
    (hnext : b = true → Same (f () s) (g ()) K) : Same ((guard b >>= f) s) (goto b >>= g) K := by
  cases b with
  | false => exact .left s
  | true => exact hnext rfl

theorem same_safe {γ : Type} {o : Option γ} {f : γ → Exit State α} {g : γ → Except Halt β}
    (hnext : ∀ a, o = some a → Same (f a s) (g a) K) :
    Same ((access o >>= f) s) (safe o >>= g) K := by
  cases o with
  | none => exact .wrong
  | some a => exact hnext a rfl

theorem same_checklen (hs : c.On h mem) {len : Nat} {f : Unit → Exit State α}
    {g : Unit → Except Halt β}
    (hnext : len ≤ c.remain → Same (f () (c.state ep mem)) (g ()) K) :
    Same ((checklen h len >>= f) (c.state ep mem)) (goto (len ≤ c.remain) >>= g) K := by
  show Same ((guard (decide ((len : Int) ≤ h.left c.remain)) >>= f) (c.state ep mem)) _ K
  rw [hs.left, decide_eq_decide.mpr Int.ofNat_le]
  exact same_goto fun hb => hnext (of_decide_eq_true hb)

/-- `CHECKLEN` and the bytes -/
theorem same_take (hs : c.On h mem) {len : Nat} {f : List UInt8 → Exit State α}
    {g : List UInt8 × Cur → Except Halt β} (hnext : len ≤ c.remain →
      Same (f (slice mem c.p len) (c.state ep mem)) (g (slice mem c.p len, c.skip len)) K) :
    Same ((checklen h len >>= fun _ => bytes len >>= f) (c.state ep mem)) (c.take mem len >>= g)
      K := by
  have hw := hs.whole
  have htake : c.take mem len >>= g = goto (len ≤ c.remain) >>= fun _ =>
      safe (load mem c.p len) >>= fun b => g (b, c.skip len) := by
    unfold Cur.take
    by_cases hlen : len ≤ c.remain
    · rw [decide_eq_true hlen]
      cases load mem c.p len <;> rfl
    · rw [decide_eq_false hlen]
      rfl
  rw [htake]
  refine same_checklen hs fun hlen => ?_
  show Same ((access (load mem c.p len) >>= f) (c.state ep mem)) _ K
  have hload : load mem c.p len = some (slice mem c.p len) := load_eq_some.mpr ⟨by omega, rfl⟩
  rw [hload]
  exact hnext hlen

theorem same_crypted {malloc : Nat → Bool} {seed : UInt8} {key : CStr} {m : List UInt8}
    {src dst len : Nat} {longstate : Bool} {f : List UInt8 → Exit State α}
    {g : List UInt8 → Except Halt β}
    (hnext : ∀ m', bcryptBuf malloc seed key m src dst len longstate = .ok m' →
      Same (f m' s) (g m') K) :
    Same ((crypted malloc seed key m src dst len longstate >>= f) s)
      (bcryptBuf malloc seed key m src dst len longstate >>= g) K := by
  unfold crypted
  cases hb : bcryptBuf malloc seed key m src dst len longstate with
  | ok m' => exact hnext m' hb
  | error e =>
    cases e with
    | out => exact .left s
    | ub => exact .wrong

theorem same_setEp {ge : EncParam → EncParam} {f : Unit → Exit State α} {x : Except Halt β}
    (hnext : Same (f () (c.state (ge ep) mem)) x K) :
    Same ((setEp ge >>= f) (c.state ep mem)) x K := hnext

theorem same_setData {m : List UInt8} {f : Unit → Exit State α} {x : Except Halt β}
    (hnext : Same (f () (c.state ep m)) x K) :
    Same ((update (fun s => { s with data := m }) >>= f) (c.state ep mem)) x K := hnext

theorem same_incp (hs : c.On h mem) {len : Nat} (hlen : len ≤ c.remain) {f : Unit → Exit State α}
    {x : Except Halt β} (hnext : Same (f () ((c.skip len).state ep mem)) x K) :
    Same ((incp h len >>= f) (c.state ep mem)) x K := by
  refine Follows.update ?_
  rw [hs.skip_state hlen]
  exact hnext

/-! ### step by step

`k` is what `decryptBuf` does with the bytes it has taken. -/

theorem takeHeader_same (hs : c.On h mem) {f : Unit → Exit State α}
    {k : List UInt8 × Cur → Except Halt β} {k' : List UInt8 → List UInt8 × Cur → Except Halt β}
    (hk : ∀ m c, k (m, c) = goto (checkMagic m) >>= fun _ => c.take mem 1 >>= k' m)
    (hnext : ∀ m d c', Cur.On h mem c' → Same
      (f () (c'.state { ep with magic := m, seed := d.getD 0 0 } mem)) (k' m (d, c')) K) :
    Same ((takeHeader h >>= f) (c.state ep mem)) (c.take mem encMagicLen >>= k) K := by
  unfold takeHeader
  simp only [Exits.bind_assoc]
  refine same_take hs fun l => ?_
  rw [hk]
  refine same_goto fun _ => same_setEp (same_incp hs l ?_)
  refine same_take (hs.skip l) fun l' => same_setEp (same_incp (hs.skip l) l' ?_)
  exact hnext _ _ _ ((hs.skip l).skip l')

theorem takeLen_same (hs : c.On h mem) {max : Nat} {f : Nat → Exit State α}
    {k : List UInt8 × Cur → Except Halt β} {k' : List UInt8 → Cur → Except Halt β}
    (hk : ∀ w c, k (w, c) = goto ((get32 true w).toNat ≤ max) >>= fun _ => k' w c)
    (hnext : ∀ w c', Cur.On h mem c' →
      Same (f (get32 true w).toNat (c'.state ep mem)) (k' w c') K) :
    Same ((takeLen h max >>= f) (c.state ep mem)) (c.take mem 4 >>= k) K := by
  unfold takeLen
  simp only [Exits.bind_assoc, Exits.pure_bind]
  refine same_take hs fun l => ?_
  rw [hk]
  exact same_goto fun _ => same_incp hs l (hnext _ _ (hs.skip l))

theorem takeProduct_same (hs : c.On h mem) {len : Nat} {f : Unit → Exit State α}
    {k : List UInt8 × Cur → Except Halt β} {k' : Cur → List UInt8 → Except Halt β}
    (hk : ∀ d c, k (d, c) = safe (store ep.product 0 d) >>= k' c)
    (hnext : ∀ product c', Cur.On h mem c' →
      Same (f () (c'.state { ep with product := product } mem)) (k' c' product) K) :
    Same ((takeProduct h len >>= f) (c.state ep mem)) (c.take mem len >>= k) K := by
  unfold takeProduct
  simp only [Exits.bind_assoc]
  refine same_take hs fun l => ?_
  rw [hk]
  refine Follows.get (same_safe fun product _ => ?_)
  exact same_setEp (same_incp hs l (hnext _ _ (hs.skip l)))

theorem takeVersion_same (hs : c.On h mem) {len : Nat} {f : Unit → Exit State α}
    {k : List UInt8 × Cur → Except Halt β} {k' : Cur → List UInt8 → Except Halt β}
    (hk : ∀ d c, k (d, c) = safe (store ep.version 0 d) >>= k' c)
    (hnext : ∀ version c', Cur.On h mem c' →
      Same (f () (c'.state { ep with version := version } mem)) (k' c' version) K) :
    Same ((takeVersion h len >>= f) (c.state ep mem)) (c.take mem len >>= k) K := by
  unfold takeVersion
  simp only [Exits.bind_assoc]
  refine same_take hs fun l => ?_
  rw [hk]
  refine Follows.get (same_safe fun version _ => ?_)
  exact same_setEp (same_incp hs l (hnext _ _ (hs.skip l)))

theorem takeData_same (hs : c.On h mem) {malloc : Nat → Bool} {f : Unit → Exit State α}
    {k : List UInt8 × Cur → Except Halt β} {k₁ : List UInt8 → Cur → List UInt8 → Except Halt β}
    {k₂ : List UInt8 → List UInt8 → List UInt8 × Cur → Except Halt β}
    {k' : List UInt8 → List UInt8 → List UInt8 → Except Halt β}
    (hk : ∀ w c, k (w, c) = goto ((get32 true w).toNat ≤ c.remain) >>= fun _ =>
      bcryptBuf malloc (ep.version.getD 0 0) ep.key mem c.p 0 (get32 true w).toNat ep.longstate
        >>= k₁ w c)
    (hk₁ : ∀ w c m, k₁ w c m = (c.skip (get32 true w).toNat).take m 4 >>= k₂ w m)
    (hk₂ : ∀ w m w' c, k₂ w m (w', c) = goto (buffaloCsum (get32 true w)
      (slice m 0 (get32 true w).toNat) = get32 true w') >>= fun _ => k' w m w')
    (hnext : ∀ w m w' (c' : Cur), Same
      (f () (c'.state { ep with datalen := get32 true w, csum := get32 true w' } m)) (k' w m w') K) :
    Same ((takeData h malloc >>= f) (c.state ep mem)) (c.take mem 4 >>= k) K := by
  unfold takeData
  simp only [Exits.bind_assoc]
  refine same_take hs fun l => ?_
  rw [hk]
  refine same_setEp (same_incp hs l (same_checklen (hs.skip l) fun l₁ => Follows.get ?_))
  refine same_crypted fun m hm => same_setData ?_
  rw [hk₁]
  have hlen := bcryptBuf_length hm
  have h₁ : (c.skip 4).On h m := ⟨by rw [hlen]; exact hs.fits, (hs.skip l).whole.trans hlen.symm⟩
  refine same_incp h₁ l₁ (same_take (h₁.skip l₁) fun l₂ => ?_)
  rw [hk₂]
  refine same_setEp (same_incp (h₁.skip l₁) l₂ (Follows.get ?_))
  have hload : load m 0 (get32 true (slice mem c.p 4)).toNat
      = some (slice m 0 (get32 true (slice mem c.p 4)).toNat) := by
    have := h₁.whole
    exact load_eq_some.mpr ⟨by omega, rfl⟩
  rw [hload]
  exact same_goto fun _ => hnext _ _ _ _

end

/-- **Both models**: on data that a `ssize_t` can count, `decryptFile` ends as `decryptBuf` does. -/
theorem decryptFile_same (h : Host) (malloc : Nat → Bool) (ep : EncParam) (data : List UInt8)
    (hfits : (data.length : Int) < 2 ^ (h.bits - 1)) :
    Same (decryptFile h malloc ep data) (decryptBuf malloc ep data 0 data.length)
      fun _ s r => r = (s.ep, s.data) := by
  have h0 : Cur.On h data ⟨0, data.length⟩ := ⟨hfits, Nat.zero_add _⟩
  unfold decryptFile
  rw [ssize_natCast h hfits]
  show Same (decryptBufOn h malloc (Cur.state ⟨0, data.length⟩ ep data)) _ _
  unfold decryptBufOn decryptBuf
  refine takeHeader_same h0 (fun _ _ => rfl) fun magic seed c₁ h₁ => ?_
  refine takeLen_same h₁ (fun _ _ => rfl) fun w c₂ h₂ => ?_
  refine takeProduct_same h₂ (fun _ _ => rfl) fun product c₃ h₃ => ?_
  refine takeLen_same h₃ (fun _ _ => rfl) fun w c₄ h₄ => ?_
  refine takeVersion_same h₄ (fun _ _ => rfl) fun version c₅ h₅ => ?_
  refine takeData_same h₅ (fun _ _ => rfl) (fun _ _ _ => rfl) (fun _ _ _ _ => rfl)
    fun w m w' c₆ => ?_
  refine Follows.get (same_crypted fun version' _ => same_setEp ?_)
  exact Follows.get (same_crypted fun product' _ => .value rfl)

/-! ## the fields -/

/-- the arrays of `struct enc_param`, and a key as `main` takes it -/
structure EncParam.Sized (ep : EncParam) : Prop where
  magic : ep.magic.length = 6
  product : ep.product.length = 32
  version : ep.version.length = 8
  key : ep.key.length ≤ 254

/-- what holds all the time while `data` is read -/
structure Reads (h : Host) (data : List UInt8) (s : State) : Prop where
  sized : s.ep.Sized
  data : s.data = data
  inside : s.Inside h

section
variable {h : Host} {data : List UInt8} {s : State} {α : Type} {L : Option α → State → Prop}

theorem Reads.take (hs : Reads h data s) {len : Nat} (hlen : (len : Int) ≤ h.left s.remain) :
    s.p + len ≤ s.data.length := by
  have hin := hs.inside
  unfold State.Inside at hin
  omega

/-- `INCP` behind `CHECKLEN` -/
theorem Reads.incp (hs : Reads h data s) {len : Nat} (hlen : (len : Int) ≤ h.left s.remain)
    {f : Unit → Exit State α} (hnext : ∀ s', Reads h data s' → s'.p = s.p + len → s'.ep = s.ep →
      Meets (f ()) s' L) : Meets (incp h len >>= f) s L := by
  refine Meets.update (hnext _ ⟨hs.sized, hs.data, ?_⟩ rfl rfl)
  have hin := hs.inside
  have := left_sub h hlen
  unfold State.Inside at hin ⊢
  unfold State.skip
  simp only
  omega

theorem Reads.setEp (hs : Reads h data s) {g : EncParam → EncParam} {f : Unit → Exit State α}
    (hg : (g s.ep).Sized) (hnext : ∀ s', Reads h data s' → s'.p = s.p → s'.remain = s.remain →
      s'.ep = g s.ep → Meets (f ()) s' L) : Meets (setEp g >>= f) s L :=
  Meets.update (hnext _ ⟨hg, hs.data, hs.inside⟩ rfl rfl rfl)

/-- **The header**: the magic and the seed. -/
theorem takeHeader_meets (hs : Reads h data s) : Meets (takeHeader h) s fun r s' =>
    Reads h data s' ∧ (r = some () → s'.p = s.p + 7) := by
  unfold takeHeader
  refine meets_checklen ⟨hs, nofun⟩ fun hlen => ?_
  refine meets_bytes (hs.take hlen) (Meets.guard (fun _ => ⟨hs, nofun⟩) fun _ => ?_)
  have hmagic : (slice s.data s.p encMagicLen).length = 6 := slice_length _ _ _ (hs.take hlen)
  refine hs.setEp ⟨hmagic, hs.sized.product, hs.sized.version, hs.sized.key⟩ fun s₁ hs₁ hp₁ hr₁ _ => ?_
  refine hs₁.incp (by rw [hr₁]; exact hlen) fun s₂ hs₂ hp₂ _ => ?_
  refine meets_checklen ⟨hs₂, nofun⟩ fun hlen₂ => meets_bytes (hs₂.take hlen₂) ?_
  refine hs₂.setEp ⟨hs₂.sized.magic, hs₂.sized.product, hs₂.sized.version, hs₂.sized.key⟩
    fun s₃ hs₃ hp₃ hr₃ _ => ?_
  refine hs₃.incp (by rw [hr₃]; exact hlen₂) fun s₄ hs₄ hp₄ _ => Meets.pure ⟨hs₄, fun _ => ?_⟩
  rw [hp₄, hp₃, hp₂, hp₁]
  rfl

/-- **A length**: what is read, and that it is not too much. -/
theorem takeLen_meets (hs : Reads h data s) (max : Nat) : Meets (takeLen h max) s fun r s' =>
    Reads h data s' ∧ ∀ len, r = some len →
      len = (get32 true (slice data s.p 4)).toNat ∧ len ≤ max ∧ s'.p = s.p + 4 := by
  unfold takeLen
  refine meets_checklen ⟨hs, nofun⟩ fun hlen => meets_bytes (hs.take hlen) ?_
  refine Meets.guard (fun _ => ⟨hs, nofun⟩) fun hmax => ?_
  refine hs.incp hlen fun s₁ hs₁ hp₁ _ => Meets.pure ⟨hs₁, ?_⟩
  rintro len ⟨⟩
  exact ⟨by rw [hs.data], of_decide_eq_true hmax, hp₁⟩

/-- `memcpy` to a field that has room for it -/
theorem meets_memcpy {field d : List UInt8} {n : Nat} {f : List UInt8 → Exit State α}
    (hfield : field.length = n) (hd : d.length ≤ n)
    (hnext : ∀ field', field'.length = n → Meets (f field') s L) :
    Meets (access (store field 0 d) >>= f) s L := by
  have hst : store field 0 d = some (poke field 0 d) :=
    store_eq_some.mpr ⟨by rw [hfield]; omega, rfl⟩
  exact Meets.access hst (hnext _ ((store_length hst).trans hfield))

theorem takeProduct_meets (hs : Reads h data s) {prodLen : Nat} (hmax : prodLen ≤ 32) :
    Meets (takeProduct h prodLen) s fun r s' =>
      Reads h data s' ∧ (r = some () → s'.p = s.p + prodLen) := by
  unfold takeProduct
  refine meets_checklen ⟨hs, nofun⟩ fun hlen => meets_bytes (hs.take hlen) (Meets.get ?_)
  have hd : (slice s.data s.p prodLen).length = prodLen := slice_length _ _ _ (hs.take hlen)
  refine meets_memcpy hs.sized.product (hd.trans_le hmax) fun product hproduct => ?_
  refine hs.setEp ⟨hs.sized.magic, hproduct, hs.sized.version, hs.sized.key⟩ fun s₁ hs₁ hp₁ hr₁ _ => ?_
  exact hs₁.incp (by rw [hr₁]; exact hlen) fun s₂ hs₂ hp₂ _ =>
    Meets.pure ⟨hs₂, fun _ => by rw [hp₂, hp₁]⟩

theorem takeVersion_meets (hs : Reads h data s) {verLen : Nat} (hmax : verLen ≤ 8) :
    Meets (takeVersion h verLen) s fun r s' =>
      Reads h data s' ∧ (r = some () → s'.p = s.p + verLen) := by
  unfold takeVersion
  refine meets_checklen ⟨hs, nofun⟩ fun hlen => meets_bytes (hs.take hlen) (Meets.get ?_)
  have hd : (slice s.data s.p verLen).length = verLen := slice_length _ _ _ (hs.take hlen)
  refine meets_memcpy hs.sized.version (hd.trans_le hmax) fun version hversion => ?_
  refine hs.setEp ⟨hs.sized.magic, hs.sized.product, hversion, hs.sized.key⟩ fun s₁ hs₁ hp₁ hr₁ _ => ?_
  exact hs₁.incp (by rw [hr₁]; exact hlen) fun s₂ hs₂ hp₂ _ =>
    Meets.pure ⟨hs₂, fun _ => by rw [hp₂, hp₁]⟩

/-- what holds when `data` has been decrypted in front, or not -/
structure Keeps (data : List UInt8) (s : State) : Prop where
  sized : s.ep.Sized
  length : s.data.length = data.length

theorem Reads.keeps (hs : Reads h data s) : Keeps data s := ⟨hs.sized, by rw [hs.data]⟩

/-- **The data**: the checksum that is compared is the one that was there. -/
theorem takeData_meets (malloc : Nat → Bool) (hs : Reads h data s) :
    Meets (takeData h malloc) s fun r s' => Keeps data s' ∧ (r = some () →
      ∃ len, len = get32 true (slice data s.p 4) ∧ s.p + 4 + len.toNat + 4 ≤ data.length ∧
        s'.ep.datalen = len ∧ s'.ep.csum = get32 true (slice data (s.p + 4 + len.toNat) 4) ∧
        s'.ep.csum = buffaloCsum len (slice s'.data 0 len.toNat)) := by
  unfold takeData
  refine meets_checklen ⟨hs.keeps, nofun⟩ fun hlen => meets_bytes (hs.take hlen) ?_
  rw [hs.data]
  generalize get32 true (slice data s.p 4) = len
  refine hs.setEp ⟨hs.sized.magic, hs.sized.product, hs.sized.version, hs.sized.key⟩
    fun s₁ hs₁ hp₁ hr₁ he₁ => ?_
  refine hs₁.incp (by rw [hr₁]; exact hlen) fun s₂ hs₂ hp₂ he₂ => ?_
  refine meets_checklen ⟨hs₂.keeps, nofun⟩ fun hlen₂ => Meets.get ?_
  have hin := hs₂.take hlen₂
  refine meets_crypted hs₂.sized.key (Nat.zero_le _) hin ⟨hs₂.keeps, nofun⟩ ?_
  -- what is in front of the checksum is overwritten, the checksum is not
  generalize hplain : crypt _ s₂.ep.key s₂.ep.longstate (slice s₂.data s₂.p len.toNat) = plain
  have hplen : plain.length = len.toNat := by
    rw [← hplain, crypt_length, slice_length _ _ _ hin]
  rw [hs₂.data] at hin ⊢
  have hlen₃ : (poke data 0 plain).length = data.length := poke_length _ _ _ (by omega)
  refine Meets.update ?_
  have hs₃ : Reads h (poke data 0 plain) { s₂ with data := poke data 0 plain } := by
    refine ⟨hs₂.sized, rfl, ?_⟩
    have := hs₂.inside
    unfold State.Inside at this ⊢
    rw [hs₂.data] at this
    simp only
    omega
  have hkeep {s' : State} (hs' : Reads h (poke data 0 plain) s') : Keeps data s' :=
    ⟨hs'.sized, by rw [hs'.data, hlen₃]⟩
  refine hs₃.incp hlen₂ fun s₄ hs₄ hp₄ he₄ => ?_
  refine meets_checklen ⟨hkeep hs₄, nofun⟩ fun hlen₄ => meets_bytes (hs₄.take hlen₄) ?_
  refine hs₄.setEp ⟨hs₄.sized.magic, hs₄.sized.product, hs₄.sized.version, hs₄.sized.key⟩
    fun s₅ hs₅ hp₅ hr₅ he₅ => ?_
  refine hs₅.incp (by rw [hr₅]; exact hlen₄) fun s₆ hs₆ hp₆ he₆ => Meets.get ?_
  have hp₄' : s₄.p = s.p + 4 + len.toNat := by
    rw [hp₄]
    show s₂.p + len.toNat = _
    rw [hp₂, hp₁]
  have hcsum : slice s₄.data s₄.p 4 = slice data (s.p + 4 + len.toNat) 4 := by
    rw [hs₄.data, hp₄', slice_poke_after _ _ _ _ _ (by omega) (by omega)]
  have hfits := hs₄.take hlen₄
  rw [hs₄.data, hlen₃, hp₄'] at hfits
  have hload : load s₆.data 0 len.toNat = some (slice s₆.data 0 len.toNat) :=
    load_eq_some.mpr ⟨by rw [hs₆.data, hlen₃]; omega, rfl⟩
  have hec : s₆.ep.csum = get32 true (slice data (s.p + 4 + len.toNat) 4) := by
    rw [he₆, he₅, ← hcsum]
  have hed : s₆.ep.datalen = len := by
    rw [he₆, he₅, he₄]
    show s₂.ep.datalen = len
    rw [he₂, he₁]
  exact Meets.access hload (Meets.check (fun _ => ⟨hkeep hs₆, nofun⟩) fun heq =>
    ⟨hkeep hs₆, fun _ => ⟨len, rfl, hfits, hed, hec, (of_decide_eq_true heq).symm⟩⟩)

end

/-! ## the file -/

/-- where `decrypt_buf` finds the length of the data -/
def lenAt (data : List UInt8) : Nat :=
  let prodLen := (get32 true (slice data 7 4)).toNat
  15 + prodLen + (get32 true (slice data (11 + prodLen) 4)).toNat

/-- the length of the data, and the checksum behind them -/
def dataLen (data : List UInt8) : UInt32 := get32 true (slice data (lenAt data) 4)

def storedCsum (data : List UInt8) : UInt32 :=
  get32 true (slice data (lenAt data + 4 + (dataLen data).toNat) 4)

/-- **Decryption of any file**: every access is inside the data and the fields, and the function
succeeds only with the checksum of what it decrypted. -/
theorem decryptFile_safe (h : Host) (malloc : Nat → Bool) (ep : EncParam) (hep : ep.Sized)
    (data : List UInt8) : ∃ r s, decryptFile h malloc ep data = some (r, s) ∧
      s.data.length = data.length ∧ s.ep.Sized ∧
      (r = some () → lenAt data + 4 + (dataLen data).toNat + 4 ≤ data.length ∧
        s.ep.datalen = dataLen data ∧ s.ep.csum = storedCsum data ∧
        storedCsum data = buffaloCsum (dataLen data) (slice s.data 0 (dataLen data).toNat)) := by
  have hs : Reads h data ⟨ep, data, 0, h.ssize data.length⟩ := ⟨hep, rfl, Inside.start h ep data⟩
  suffices hm : Meets (decryptBufOn h malloc) ⟨ep, data, 0, h.ssize data.length⟩ fun r s =>
      Keeps data s ∧ (r = some () → lenAt data + 4 + (dataLen data).toNat + 4 ≤ data.length ∧
        s.ep.datalen = dataLen data ∧ s.ep.csum = storedCsum data ∧
        storedCsum data = buffaloCsum (dataLen data) (slice s.data 0 (dataLen data).toNat)) by
    obtain ⟨r, s, hrun, hkeep, hsucc⟩ := hm
    exact ⟨r, s, hrun, hkeep.length, hkeep.sized, hsucc⟩
  unfold decryptBufOn
  refine (takeHeader_meets hs).bind (fun s' hs' => ⟨hs'.1.keeps, nofun⟩) fun _ s₁ ⟨hs₁, hp₁⟩ => ?_
  refine (takeLen_meets hs₁ _).bind (fun s' hs' => ⟨hs'.1.keeps, nofun⟩) fun prodLen s₂ ⟨hs₂, hl₂⟩ => ?_
  obtain ⟨hprod, hprodMax, hp₂⟩ := hl₂ prodLen rfl
  refine (takeProduct_meets hs₂ hprodMax).bind (fun s' hs' => ⟨hs'.1.keeps, nofun⟩) fun _ s₃ ⟨hs₃, hp₃⟩ => ?_
  refine (takeLen_meets hs₃ _).bind (fun s' hs' => ⟨hs'.1.keeps, nofun⟩) fun verLen s₄ ⟨hs₄, hl₄⟩ => ?_
  obtain ⟨hver, hverMax, hp₄⟩ := hl₄ verLen rfl
  refine (takeVersion_meets hs₄ hverMax).bind (fun s' hs' => ⟨hs'.1.keeps, nofun⟩) fun _ s₅ ⟨hs₅, hp₅⟩ => ?_
  refine (takeData_meets malloc hs₅).bind (fun s' hs' => ⟨hs'.1, nofun⟩) fun _ s₆ ⟨hk₆, hd₆⟩ => ?_
  obtain ⟨len, hlen, hfits, hed, hec, heq⟩ := hd₆ rfl
  have hp₁' : s₁.p = 7 := hp₁ rfl
  have hp₃' : s₃.p = 11 + prodLen := by rw [hp₃ rfl, hp₂, hp₁']
  rw [hp₁'] at hprod
  rw [hp₃'] at hver hp₄
  have hat : s₅.p = lenAt data := by
    unfold lenAt
    simp only [← hprod, ← hver]
    rw [hp₅ rfl, hp₄]
    omega
  have hl : len = dataLen data := by rw [hlen, hat]; rfl
  have hfin : lenAt data + 4 + (dataLen data).toNat + 4 ≤ data.length ∧
      s₆.ep.csum = storedCsum data ∧
      storedCsum data = buffaloCsum (dataLen data) (slice s₆.data 0 (dataLen data).toNat) := by
    rw [hat, hl] at hfits hec
    rw [hl] at heq
    exact ⟨hfits, hec, hec.symm.trans heq⟩
  -- the two names are decrypted in place
  have hcrypt (seed : UInt8) (mem : List UInt8) (n : Nat) (hn : 0 + n ≤ mem.length) :
      (poke mem 0 (crypt seed s₆.ep.key s₆.ep.longstate (slice mem 0 n))).length = mem.length :=
    poke_length _ _ _ (by rw [crypt_length, slice_length _ _ _ hn]; exact hn)
  have hvn : 0 + verLen ≤ s₆.ep.version.length := by
    rw [hk₆.sized.version, Nat.zero_add]
    exact hverMax
  have hpn : 0 + prodLen ≤ s₆.ep.product.length := by
    rw [hk₆.sized.product, Nat.zero_add]
    exact hprodMax
  refine Meets.get (meets_crypted hk₆.sized.key (Nat.le_refl _) hvn ⟨hk₆, nofun⟩ (Meets.update ?_))
  have hsized := hk₆.sized
  have hv := (hcrypt (s₆.ep.product.getD 0 0) _ _ hvn).trans hsized.version
  refine Meets.get (meets_crypted hsized.key (Nat.le_refl _) hpn
    ⟨⟨⟨hsized.magic, hsized.product, hv, hsized.key⟩, hk₆.length⟩, nofun⟩ (Meets.done ⟨⟨⟨hsized.magic, ?_, hv, hsized.key⟩, hk₆.length⟩,
      fun _ => ⟨hfin.1, by rw [← hl]; exact hed, hfin.2.1, hfin.2.2⟩⟩))
  exact (hcrypt _ _ _ hpn).trans hsized.product

/-- the product `W`, no version and three bytes, encrypted and decrypted -/
theorem decryptFile_safe_image : ∃ image s, decryptFile ⟨true⟩ (fun _ => true)
    ⟨CStr.lit ['k', 'e', 'y'] (by decide), zeros 6, zeros 32, zeros 8, 0, true, 0, 0⟩ image
      = some (some (), s) ∧ s.data.take 3 = [1, 2, 3] ∧
    storedCsum image = buffaloCsum (dataLen image) (slice s.data 0 (dataLen image).toNat) := by
  have hl : (CStr.lit ['s', 't', 'a', 'r', 't'] (by decide)).length = 5 := rfl
  have hhead := @header_length 0x4f (CStr.lit ['k', 'e', 'y'] (by decide)) true
    (CStr.lit ['s', 't', 'a', 'r', 't'] (by decide)) (CStr.lit ['W'] (by decide))
    (CStr.lit [] (by decide)) 3 hl
  have hbuf := @decryptBuf_eq (fun _ => true) 0x4f (CStr.lit ['k', 'e', 'y'] (by decide)) true
    (by decide) (fun _ _ _ => rfl)
    ⟨CStr.lit ['k', 'e', 'y'] (by decide), zeros 6, zeros 32, zeros 8, 0, true, 0, 0⟩
    (CStr.lit ['s', 't', 'a', 'r', 't'] (by decide)) (CStr.lit ['W'] (by decide))
    (CStr.lit [] (by decide)) [1, 2, 3] [7] 3 (buffaloCsum 3 [1, 2, 3]) rfl rfl rfl rfl hl
    (by decide) (by decide) (by decide) rfl (by decide) rfl _ rfl
  revert hbuf
  generalize himage : header _ _ _ _ _ _ _ ++ _ = image
  intro hbuf
  have hlen : image.length = 30 := by
    rw [← himage, List.length_append, hhead, List.length_append, crypt_length, List.length_append,
      put32_length]
    rfl
  have hfits : (image.length : Int) < 2 ^ (Host.bits ⟨true⟩ - 1) := by
    rw [hlen]
    unfold Host.bits
    norm_num
  have hsame := decryptFile_same ⟨true⟩ (fun _ => true)
    ⟨CStr.lit ['k', 'e', 'y'] (by decide), zeros 6, zeros 32, zeros 8, 0, true, 0, 0⟩ image hfits
  obtain ⟨_, s', hrun, hs'⟩ := hsame.ok hbuf
  obtain ⟨r, s, hfile, -, -, hsucc⟩ := decryptFile_safe ⟨true⟩ (fun _ => true)
    ⟨CStr.lit ['k', 'e', 'y'] (by decide), zeros 6, zeros 32, zeros 8, 0, true, 0, 0⟩
    ⟨rfl, rfl, rfl, by decide⟩ image
  obtain ⟨rfl, rfl⟩ := Prod.mk.inj (Option.some.inj (hfile.symm.trans hrun))
  refine ⟨image, _, hrun, ?_, (hsucc rfl).2.2.2⟩
  rw [← (Prod.mk.inj hs').2]
  rfl

end Buffalo
