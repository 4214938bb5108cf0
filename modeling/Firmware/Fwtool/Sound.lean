import Firmware.Fwtool.RoundTrip

/-!
# fwtool: extraction from arbitrary files

`SoundOn` is what a successful extraction should mean for an arbitrary file: the output is the
payload of a chunk with a valid trailer, reached by skipping complete chunks, and `-t` cuts the
file in front of that chunk.  A file longer than `file_len` can count is not sound: the addition
overflows, and nothing is promised about the rest of the run.

The code does not look at the result of the second `extract_tail`, so a trailer may announce more
bytes than the buffers still hold (`Overrun`); the rest of the output is then whatever the buffer
contained.  `soundOn_iff`: up to `INT_MAX` bytes that is the only way to go wrong.
-/

set_option linter.unusedVariables false

namespace Fwtool
open Img Word CInt Blocks

/-! ## the property -/

/-- the loop goes on behind this chunk -/
def skipped (kind : Kind) (type : UInt8) (buf : List UInt8) : Prop :=
  match kind with
  | .signature => type ≠ fwimageSignature ∧ type ≠ fwimageInfo
  | .metadata => type ≠ fwimageInfo ∨ buf.take 4 ≠ [0, 0, 0, 0]

/-- complete chunks that the extractor steps over, one behind the other -/
inductive Chunks (P : UInt8 → List UInt8 → Prop) : List UInt8 → Prop where
  | nil : Chunks P []
  | snoc {l d t : List UInt8} : Chunks P l → t.length = trailerLen →
      (Trailer.ofBytes t).magic = fwimageMagic →
      (Trailer.ofBytes t).size.toNat = d.length + trailerLen → P (Trailer.ofBytes t).type d →
      Chunks P (l ++ (d ++ t))

/-- the payload without its header -/
def Kind.strip (kind : Kind) (d : List UInt8) : List UInt8 := d.drop kind.hdr.length

/-- the file is read without an overflow, and every success of the extractor is backed by a chunk
of it -/
def SoundOn (heap : Heap) (kind : Kind) (f : List UInt8) : Prop :=
  readLoop heap (f.length + 1) f 0xffffffff ⟨none, none, 0, 0⟩ ≠ none ∧
  ∀ trunc out new, extractData heap kind trunc f = some (0, out, new) →
    ∃ p d t rest, f = p ++ (d ++ (t ++ rest)) ∧ t.length = trailerLen ∧
      (Trailer.ofBytes t).magic = fwimageMagic ∧
      (Trailer.ofBytes t).crc32 = crc32Block 0xffffffff (p ++ d) ∧
      (Trailer.ofBytes t).size.toNat = d.length + trailerLen ∧
      Chunks (skipped kind) rest ∧ out = kind.strip d ∧ (trunc = true → new = p)

/-! ## the condition -/

/-- the 16 bytes `t` behind `l` are a trailer that passes all checks and announces `n` bytes -/
structure Valid (crc : UInt32) (l t : List UInt8) (n : Nat) : Prop where
  length : t.length = trailerLen
  magic : (Trailer.ofBytes t).magic = fwimageMagic
  front : l ≠ []
  crc32 : (Trailer.ofBytes t).crc32 = crc32Block crc l
  size : (Trailer.ofBytes t).size.toNat = n + trailerLen
  bound : n ≤ bufLen

/-- the chunk is the one asked for: its type, and for metadata a zero version word in front of at
least a header -/
def wanted (kind : Kind) (type : UInt8) (n : Nat) (buf : List UInt8) : Prop :=
  match kind with
  | .signature => type = fwimageSignature
  | .metadata => type = fwimageInfo ∧ buf.take 4 = [0, 0, 0, 0] ∧ hdrLen ≤ n

/-- what is left of the tail and what the output buffer holds after stepping over complete
chunks -/
inductive Skip (kind : Kind) (crc : UInt32) : List UInt8 → List UInt8 → List UInt8 → List UInt8 →
    Prop where
  | refl (l buf : List UInt8) : Skip kind crc l buf l buf
  | step {l d t buf l' buf' : List UInt8} : Valid crc (l ++ d) t d.length →
      skipped kind (Trailer.ofBytes t).type (d ++ buf.drop d.length) →
      Skip kind crc l (d ++ buf.drop d.length) l' buf' →
      Skip kind crc (l ++ (d ++ t)) buf l' buf'

/-- behind complete chunks stands a chunk of the kind asked for whose trailer announces more bytes
than the buffers hold in front of it -/
def Overrun (heap : Heap) (kind : Kind) (f : List UInt8) : Prop :=
  ∃ l t buf n, Skip kind (crc32Block 0xffffffff (headOf f)) (tailOf f) heap.buf.1 (l ++ t) buf ∧
    Valid (crc32Block 0xffffffff (headOf f)) l t n ∧ l.length < n ∧
    wanted kind (Trailer.ofBytes t).type n (takePayload l buf n).2

/-! ## one turn of the loop -/

theorem toInt_of_size {w : UInt32} {n : Nat} (h : w.toNat = n + trailerLen) (hn : n ≤ bufLen) :
    toInt (w - UInt32.ofNat trailerLen) = n := by
  have e : w = UInt32.ofNat (n + trailerLen) := by
    rw [← h, UInt32.ofNat_toNat]
  rw [e, toInt_size hn]

theorem size_of_toInt {w : UInt32} (h0 : ¬ toInt (w - UInt32.ofNat trailerLen) < 0)
    (h1 : ¬ toInt (w - UInt32.ofNat trailerLen) > bufLen) :
    w.toNat = (toInt (w - UInt32.ofNat trailerLen)).toNat + trailerLen := by
  have hB := bufLen_eq
  have h16 : trailerLen = 16 := rfl
  have hw := w.toNat_lt
  have hs : (w - UInt32.ofNat trailerLen).toNat = (4294967296 - 16 + w.toNat) % 4294967296 :=
    UInt32.toNat_sub _ _
  unfold toInt at h0 h1 ⊢
  rw [hs] at h0 h1 ⊢
  split at h0 <;> rename_i hc
  · rw [if_pos hc] at h1 ⊢
    rw [Int.toNat_natCast]
    omega
  · omega

/-- a valid trailer: the payload is taken and used -/
theorem tailLoop_valid (kind : Kind) {crc : UInt32} (g fuel : Nat) {l t : List UInt8} {n : Nat}
    (buf : List UInt8) (hv : Valid crc l t n) :
    tailLoop kind crc g (fuel + 1) (l ++ t) buf
      = useChunk kind (tailLoop kind crc g fuel (takePayload l buf n).1 (takePayload l buf n).2)
          (Trailer.ofBytes t).type n (g + (takePayload l buf n).1.length : Nat)
          (takePayload l buf n).2 := by
  have hlen : (l ++ t).length = l.length + trailerLen := by rw [List.length_append, hv.length]
  have hk : (l ++ t).length - trailerLen = l.length := by omega
  have hb := hv.bound
  conv_lhs => unfold tailLoop
  rw [if_neg (by omega), hk, List.take_left, List.drop_left]
  simp only [toInt_of_size hv.size hv.bound]
  rw [if_neg (by rw [hv.magic]; simp), if_neg hv.front, if_neg (by rw [hv.crc32]; simp),
    if_neg (by omega), if_neg (by omega), Int.toNat_natCast]

/-- a success starts with a valid trailer -/
theorem tailLoop_ret {kind : Kind} {crc : UInt32} {g fuel : Nat} {l buf : List UInt8} {r : Result}
    (h : tailLoop kind crc g (fuel + 1) l buf = some r) (h0 : r.ret = 0) :
    ∃ l1 t n, l = l1 ++ t ∧ Valid crc l1 t n := by
  have hno : ∀ fl : Int, some (⟨1, [], fl⟩ : Result) = some r → False := by
    intro fl e
    rw [← Option.some.inj e] at h0
    exact absurd h0 (by simp)
  unfold tailLoop at h
  by_cases hs : l.length < trailerLen
  · rw [if_pos hs] at h
    exact (hno _ h).elim
  rw [if_neg hs] at h
  refine ⟨l.take (l.length - trailerLen), l.drop (l.length - trailerLen),
    (toInt ((Trailer.ofBytes (l.drop (l.length - trailerLen))).size
      - UInt32.ofNat trailerLen)).toNat, (List.take_append_drop _ _).symm, ?_⟩
  have ht : (l.drop (l.length - trailerLen)).length = trailerLen := by
    rw [List.length_drop]
    omega
  generalize l.drop (l.length - trailerLen) = t at h ht ⊢
  generalize l.take (l.length - trailerLen) = l1 at h ⊢
  simp only at h
  by_cases hm : (Trailer.ofBytes t).magic ≠ fwimageMagic
  · rw [if_pos hm] at h
    exact (hno _ h).elim
  rw [if_neg hm] at h
  by_cases hne : l1 = []
  · rw [if_pos hne] at h
    exact absurd h (by simp)
  rw [if_neg hne] at h
  by_cases hc : (Trailer.ofBytes t).crc32 ≠ crc32Block crc l1
  · rw [if_pos hc] at h
    exact (hno _ h).elim
  rw [if_neg hc] at h
  by_cases hb : toInt ((Trailer.ofBytes t).size - UInt32.ofNat trailerLen) > bufLen
  · rw [if_pos hb] at h
    exact (hno _ h).elim
  rw [if_neg hb] at h
  by_cases hn : toInt ((Trailer.ofBytes t).size - UInt32.ofNat trailerLen) < 0
  · rw [if_pos hn] at h
    exact absurd h (by simp)
  exact ⟨ht, not_not.mp hm, hne, not_not.mp hc, size_of_toInt hn hb, by omega⟩

/-- `use` of a chunk: the loop goes on, or the payload is written, or the run fails -/
theorem useChunk_skipped {kind : Kind} {type : UInt8} {buf : List UInt8}
    (h : skipped kind type buf) (again : Option Result) (n fl : Int) :
    useChunk kind again type n fl buf = again := by
  unfold useChunk validateMetadata
  cases kind with
  | signature => rw [if_neg h.1, if_neg h.2]
  | metadata =>
    by_cases hs : type = fwimageSignature
    · rw [if_pos hs, if_pos (by simp)]
    · rw [if_neg hs]
      by_cases hi : type = fwimageInfo
      · have hv : buf.take 4 ≠ [0, 0, 0, 0] := h.resolve_left fun h' => h' hi
        rw [if_pos hi, if_neg (by simp)]
        simp only [if_pos hv]
        rw [if_pos (by decide)]
      · rw [if_neg hi]

theorem useChunk_wanted {kind : Kind} {type : UInt8} {n : Nat} {buf : List UInt8}
    (h : wanted kind type n buf) (again : Option Result) (fl : Int) (hb : n ≤ buf.length) :
    useChunk kind again type n fl buf = some ⟨0, kind.strip (buf.take n), fl⟩ := by
  unfold useChunk validateMetadata
  cases kind with
  | signature =>
    have hl : load buf 0 n = some (buf.take n) := load_eq_some.mpr ⟨by omega, rfl⟩
    have ht : type = fwimageSignature := h
    rw [if_pos ht, if_neg (by simp), Int.toNat_natCast, hl]
    rfl
  | metadata =>
    obtain ⟨ht, hv, hn⟩ := h
    have h8 : hdrLen = 8 := rfl
    have hl : load buf hdrLen (n - hdrLen) = some ((buf.take n).drop hdrLen) := by
      refine load_eq_some.mpr ⟨by omega, ?_⟩
      unfold slice
      rw [List.drop_take]
    rw [if_neg (by rw [ht]; decide), if_pos ht, if_neg (by simp)]
    simp only [if_neg (not_not.mpr hv)]
    rw [if_neg (by simp), if_neg (by omega), show ((n : Int) - hdrLen).toNat = n - hdrLen by omega,
      hl]
    rfl

theorem useChunk_ret {kind : Kind} {again : Option Result} {type : UInt8} {n : Nat} {fl : Int}
    {buf : List UInt8} {r : Result} (h : useChunk kind again type n fl buf = some r)
    (h0 : r.ret = 0) : (skipped kind type buf ∧ again = some r) ∨ wanted kind type n buf := by
  unfold useChunk validateMetadata at h
  by_cases hs : type = fwimageSignature
  · cases kind with
    | signature => exact .inr hs
    | metadata =>
      rw [if_pos hs, if_pos (by simp)] at h
      exact .inl ⟨.inl (by rw [hs]; decide), h⟩
  · rw [if_neg hs] at h
    by_cases hi : type = fwimageInfo
    · rw [if_pos hi] at h
      cases kind with
      | signature =>
        rw [if_pos (by simp)] at h
        rw [← Option.some.inj h] at h0
        exact absurd h0 (by simp)
      | metadata =>
        rw [if_neg (by simp)] at h
        by_cases hv : buf.take 4 ≠ [0, 0, 0, 0]
        · simp only [if_pos hv] at h
          rw [if_pos (by decide)] at h
          exact .inl ⟨.inr hv, h⟩
        · simp only [if_neg hv] at h
          rw [if_neg (by simp)] at h
          by_cases hn : (n : Int) - hdrLen < 0
          · rw [if_pos hn] at h
            exact absurd h (by simp)
          · exact .inr ⟨hi, not_not.mp hv, by omega⟩
    · rw [if_neg hi] at h
      refine .inl ⟨?_, h⟩
      cases kind with
      | signature => exact ⟨hs, hi⟩
      | metadata => exact .inl hi

/-- the first bytes of the buffer are the payload, and a short payload has no version word -/
theorem skipped_payload {kind : Kind} {type : UInt8} {d buf : List UInt8}
    (h : skipped kind type (d ++ buf)) : skipped kind type d := by
  cases kind with
  | signature => exact h
  | metadata =>
    rcases h with h | h
    · exact .inl h
    · refine .inr fun e => h ?_
      have hd : 4 ≤ d.length := by
        have := congrArg List.length e
        rw [List.length_take] at this
        simp only [List.length_cons, List.length_nil] at this
        omega
      rw [List.take_append_of_le_length hd, e]

/-- a payload that is there -/
theorem takePayload_le {l : List UInt8} (buf : List UInt8) {n : Nat} (h : n ≤ l.length) :
    ∃ l0 d, l = l0 ++ d ∧ d.length = n ∧ takePayload l buf n = (l0, d ++ buf.drop n) := by
  refine ⟨l.take (l.length - n), l.drop (l.length - n), (List.take_append_drop _ _).symm, ?_, ?_⟩
  · rw [List.length_drop]
    omega
  · unfold takePayload
    rw [if_pos h]

/-! ## success without overrun -/

/-- a success on the tail `l`: a chunk that is backed by the file, or an overrun -/
theorem tailLoop_sound (kind : Kind) (crc : UInt32) (g : Nat) : ∀ (fuel : Nat) (l buf : List UInt8)
    (r : Result), tailLoop kind crc g fuel l buf = some r → r.ret = 0 → buf.length = bufLen →
    (∃ l0 d t rest, l = l0 ++ (d ++ (t ++ rest)) ∧ Valid crc (l0 ++ d) t d.length ∧
      Chunks (skipped kind) rest ∧ r.out = kind.strip d ∧ r.fileLen = (g + l0.length : Nat)) ∨
    (∃ l1 t buf' n, Skip kind crc l buf (l1 ++ t) buf' ∧ Valid crc l1 t n ∧ l1.length < n ∧
      wanted kind (Trailer.ofBytes t).type n (takePayload l1 buf' n).2) := by
  intro fuel
  induction fuel with
  | zero =>
    intro l buf r h
    exact absurd h (by simp [tailLoop])
  | succ fuel ih =>
    intro l buf r h h0 hb
    obtain ⟨l1, t, n, rfl, hv⟩ := tailLoop_ret h h0
    rw [tailLoop_valid kind g fuel buf hv] at h
    have hpl := takePayload_length (l := l1) hv.bound hb
    by_cases hn : n ≤ l1.length
    · obtain ⟨l0, d, rfl, rfl, hp⟩ := takePayload_le buf hn
      rw [hp] at h hpl
      rcases useChunk_ret h h0 with ⟨hs, hag⟩ | hw
      · rw [List.append_assoc]
        rcases ih l0 _ r hag h0 hpl with ⟨l0', d', t', rest, rfl, hv', hc, ho, hf⟩ | hover
        · refine .inl ⟨l0', d', t', rest ++ (d ++ t), by simp, hv', ?_, ho, hf⟩
          exact .snoc hc hv.length hv.magic hv.size (skipped_payload hs)
        · obtain ⟨l1', t', buf', n', hsk, hrest⟩ := hover
          exact .inr ⟨l1', t', buf', n', .step hv hs hsk, hrest⟩
      · rw [useChunk_wanted hw _ _ (by rw [hpl]; exact hv.bound), List.take_left] at h
        obtain rfl := Option.some.inj h
        exact .inl ⟨l0, d, t, [], by simp, hv, .nil, rfl, rfl⟩
    · rcases useChunk_ret h h0 with ⟨hs, hag⟩ | hw
      · -- nothing is left behind a short payload
        have hnil : (takePayload l1 buf n).1 = [] := by
          unfold takePayload
          rw [if_neg hn]
        rw [hnil] at hag
        cases fuel with
        | zero => exact absurd hag (by simp [tailLoop])
        | succ fuel =>
          obtain ⟨l1', t', n', he, hv'⟩ := tailLoop_ret hag h0
          exact absurd (List.append_eq_nil_iff.mp he.symm).1 hv'.front
      · exact .inr ⟨l1, t, buf, n, .refl _ _, hv, by omega, hw⟩

/-! ## an overrun succeeds, and wrongly so -/

theorem Chunks.mono {P Q : UInt8 → List UInt8 → Prop} (h : ∀ k d, P k d → Q k d) {l : List UInt8}
    (hc : Chunks P l) : Chunks Q l := by
  induction hc with
  | nil => exact .nil
  | snoc _ h1 h2 h3 h4 ih => exact .snoc ih h1 h2 h3 (h _ _ h4)

theorem Chunks.cons {P : UInt8 → List UInt8 → Prop} {d t rest : List UInt8} (hc : Chunks P rest)
    (h1 : t.length = trailerLen) (h2 : (Trailer.ofBytes t).magic = fwimageMagic)
    (h3 : (Trailer.ofBytes t).size.toNat = d.length + trailerLen)
    (h4 : P (Trailer.ofBytes t).type d) : Chunks P (d ++ (t ++ rest)) := by
  induction hc with
  | nil =>
    rw [List.append_nil]
    exact .snoc .nil h1 h2 h3 h4
  | @snoc l d' t' _ h1' h2' h3' h4' ih =>
    have e : d ++ (t ++ (l ++ (d' ++ t'))) = (d ++ (t ++ l)) ++ (d' ++ t') := by simp
    rw [e]
    exact .snoc ih h1' h2' h3' h4'

/-- the last trailer of complete chunks has its payload in front of it -/
theorem Chunks.last {P : UInt8 → List UInt8 → Prop} {m l t : List UInt8} (hc : Chunks P m)
    (hm : m = l ++ t) (ht : t.length = trailerLen) :
    ∃ l2 d, l = l2 ++ d ∧ (Trailer.ofBytes t).size.toNat = d.length + trailerLen ∧
      Chunks P l2 := by
  cases hc with
  | nil =>
    have h16 : trailerLen = 16 := rfl
    rw [(List.append_eq_nil_iff.mp hm.symm).2] at ht
    exact absurd ht (by decide)
  | @snoc l2 d t2 hc2 h1 h2 h3 h4 =>
    rw [← List.append_assoc] at hm
    obtain ⟨e1, e2⟩ := List.append_inj' hm (by rw [h1, ht])
    exact ⟨l2, d, e1.symm, by rw [← e2]; exact h3, hc2⟩

/-- stepping over a complete chunk leaves complete chunks -/
theorem Skip.chunks {kind : Kind} {crc : UInt32} {P : UInt8 → List UInt8 → Prop}
    {l buf l' buf' : List UInt8} (hs : Skip kind crc l buf l' buf') (hc : Chunks P l) :
    Chunks P l' := by
  induction hs with
  | refl l buf => exact hc
  | @step l d t buf l' buf' hv _ _ ih =>
    obtain ⟨l2, d2, e, hsz, hc2⟩ := hc.last (List.append_assoc l d t).symm hv.length
    have hd : d2.length = d.length := by
      have := hv.size
      omega
    obtain ⟨rfl, -⟩ := List.append_inj' e hd.symm
    exact ih hc2

/-- the code follows the skipped chunks -/
theorem Skip.tailLoop {kind : Kind} {crc : UInt32} {l buf l' buf' : List UInt8}
    (hs : Skip kind crc l buf l' buf') (g : Nat) : ∀ fuel, l.length < fuel → buf.length = bufLen →
    ∃ fuel', l'.length < fuel' ∧ buf'.length = bufLen ∧
      tailLoop kind crc g fuel l buf = tailLoop kind crc g fuel' l' buf' := by
  induction hs with
  | refl l buf =>
    intro fuel hf hb
    exact ⟨fuel, hf, hb, rfl⟩
  | @step l d t buf l' buf' hv hsk _ ih =>
    intro fuel hf hb
    obtain ⟨k, rfl⟩ : ∃ k, fuel = k + 1 := ⟨fuel - 1, by omega⟩
    have h16 : trailerLen = 16 := rfl
    have ht := hv.length
    rw [List.length_append, List.length_append] at hf
    have hp := takePayload_append l d buf
    have hpl := takePayload_length (l := l ++ d) hv.bound hb
    rw [hp] at hpl
    obtain ⟨fuel', h1, h2, h3⟩ := ih k (by omega) hpl
    refine ⟨fuel', h1, h2, ?_⟩
    rw [← List.append_assoc, tailLoop_valid kind g k buf hv, hp]
    simp only
    rw [useChunk_skipped hsk, h3]

theorem Overrun.extractData {heap : Heap} {kind : Kind} {f : List UInt8}
    (hmax : f.length ≤ 2147483647) (ho : Overrun heap kind f) :
    ∃ out, extractData heap kind true f = some (0, out, headOf f) := by
  obtain ⟨l, t, buf, n, hs, hv, hn, hw⟩ := ho
  have hle : (tailOf f).length < f.length + 1 := by
    unfold tailOf
    rw [List.length_drop]
    omega
  obtain ⟨fuel, hfuel, hb, he⟩ := hs.tailLoop (headOf f).length (f.length + 1) hle heap.buf.2
  obtain ⟨k, rfl⟩ : ∃ k, fuel = k + 1 := ⟨fuel - 1, by omega⟩
  have hpl := takePayload_length (l := l) hv.bound hb
  have hnil : (takePayload l buf n).1 = [] := by
    unfold takePayload
    rw [if_neg (by omega)]
  rw [tailLoop_valid kind _ k buf hv, useChunk_wanted hw _ _ (by rw [hpl]; exact hv.bound),
    hnil] at he
  refine ⟨kind.strip ((takePayload l buf n).2.take n), ?_⟩
  have hhead : f.take (headOf f).length = headOf f := by
    unfold headOf
    rw [List.length_take, Nat.min_eq_left (Nat.sub_le _ _)]
  rw [extractData_eq heap kind true f hmax, he, Option.map_some]
  simp only [and_self, if_true, List.length_nil, Nat.add_zero, Int.toNat_natCast, hhead]

theorem head_append_tail (f : List UInt8) : headOf f ++ tailOf f = f := List.take_append_drop _ _

/-- no chunk of the file backs an overrun: the file would end in complete chunks -/
theorem Overrun.not_soundOn {heap : Heap} {kind : Kind} {f : List UInt8}
    (hmax : f.length ≤ 2147483647) (ho : Overrun heap kind f) : ¬ SoundOn heap kind f := by
  rintro ⟨-, h⟩
  obtain ⟨out, he⟩ := ho.extractData hmax
  obtain ⟨p, d, t, rest, hf, h1, h2, -, h4, h5, -, hp⟩ := h true out _ he
  have htail : tailOf f = d ++ (t ++ rest) := by
    have e := (head_append_tail f).trans hf
    rw [hp rfl] at e
    exact List.append_cancel_left e
  have hc : Chunks (fun _ _ => True) (tailOf f) := by
    rw [htail]
    exact Chunks.cons (h5.mono fun _ _ _ => trivial) h1 h2 h4 trivial
  obtain ⟨l, t', buf, n, hs, hv, hn, -⟩ := ho
  obtain ⟨l2, d2, e, hsz, -⟩ := (hs.chunks hc).last rfl hv.length
  have hlen := congrArg List.length e
  rw [List.length_append] at hlen
  have := hv.size
  omega

/-- the code can count exactly the files of at most `INT_MAX` bytes -/
theorem readLoop_defined (heap : Heap) (f : List UInt8) :
    readLoop heap (f.length + 1) f 0xffffffff ⟨none, none, 0, 0⟩ ≠ none ↔
      f.length ≤ 2147483647 := by
  constructor
  · intro h
    by_contra hmax
    refine h (readLoop_overflow heap _ f _ _ (Int.le_refl 0) ?_ (by decide))
    show (2147483647 : Int) < 0 + f.length
    omega
  · intro hmax
    obtain ⟨d, g, l, e, -⟩ := readLoop_rep heap f hmax
    rw [e]
    exact Option.some_ne_none _

theorem soundOn_of_no_overrun {heap : Heap} {kind : Kind} {f : List UInt8}
    (hmax : f.length ≤ 2147483647) (h : ¬ Overrun heap kind f) : SoundOn heap kind f := by
  refine ⟨(readLoop_defined heap f).mpr hmax, ?_⟩
  intro trunc out new he
  rw [extractData_eq heap kind trunc f hmax] at he
  obtain ⟨r, hr, he⟩ := Option.map_eq_some_iff.mp he
  obtain ⟨h0, he⟩ := Prod.mk.inj he
  obtain ⟨rfl, rfl⟩ := Prod.mk.inj he
  rcases tailLoop_sound kind _ _ _ _ _ r hr h0 heap.buf.2 with
    ⟨l0, d, t, rest, hl, hv, hc, ho, hfl⟩ | hover
  · have hf : f = (headOf f ++ l0) ++ (d ++ (t ++ rest)) := by
      rw [List.append_assoc, ← hl, head_append_tail]
    refine ⟨headOf f ++ l0, d, t, rest, hf, hv.length, hv.magic, ?_, hv.size, hc, ho, ?_⟩
    · rw [hv.crc32, ← crc32Block_append, List.append_assoc]
    · intro ht
      rw [if_pos ⟨h0, ht⟩, hfl, Int.toNat_natCast, ← List.length_append]
      conv_lhs => rw [hf]
      rw [List.take_left' (by rw [← hf])]
  · exact absurd hover h

/-- **Soundness of the extractor**, for every file: it fails on overruns, and on files too long to
be counted. -/
theorem soundOn_iff (heap : Heap) (kind : Kind) (f : List UInt8) :
    SoundOn heap kind f ↔ f.length ≤ 2147483647 ∧ ¬ Overrun heap kind f := by
  constructor
  · intro h
    have hmax := (readLoop_defined heap f).mp h.1
    exact ⟨hmax, fun ho => ho.not_soundOn hmax h⟩
  · rintro ⟨hmax, h⟩
    exact soundOn_of_no_overrun hmax h

/-- uninitialised memory that happens to be zero -/
def zeroHeap : Heap where
  buf := ⟨List.replicate bufLen 0, List.length_replicate⟩
  blk _ := ⟨List.replicate bufLen 0, List.length_replicate⟩
  tr := ⟨List.replicate trailerLen 0, List.length_replicate⟩

/-- a trailer that announces 100 bytes behind a single one -/
def shortTrailer : Trailer :=
  ⟨fwimageMagic, crc32Block 0xffffffff [0], fwimageSignature, [0, 0, 0], 116⟩

theorem soundOn_short : ¬ SoundOn zeroHeap .signature ([0] ++ shortTrailer.bytes) := by
  have hl := shortTrailer.bytes_length rfl
  have hof := shortTrailer.ofBytes_bytes rfl
  have hlen : ([0] ++ shortTrailer.bytes).length = 17 := by
    rw [List.length_append, hl]
    rfl
  have htl : tailLen ([0] ++ shortTrailer.bytes).length = 17 := by
    rw [hlen]
    rfl
  have ht : tailOf ([0] ++ shortTrailer.bytes) = [0] ++ shortTrailer.bytes := by
    unfold tailOf
    rw [htl, hlen, Nat.sub_self, List.drop_zero]
  have hh : headOf ([0] ++ shortTrailer.bytes) = [] := by
    unfold headOf
    rw [htl, hlen, Nat.sub_self, List.take_zero]
  refine Overrun.not_soundOn (by rw [hlen]; decide)
    ⟨[0], shortTrailer.bytes, zeroHeap.buf.1, 100, ?_, ⟨hl, ?_, by simp, ?_, ?_, by decide⟩,
      by decide, ?_⟩
  · rw [ht]
    exact .refl _ _
  · rw [hof]
    rfl
  · rw [hof, hh]
    rfl
  · rw [hof]
    rfl
  · rw [hof]
    rfl

end Fwtool
