import Firmware.Fwtool.Walk

/-!
# fwtool: what is appended can be extracted

* `addData_eq`        `add_data` appends the payload and a trailer with the CRC of everything in
                      front of it;
* `tailLoop_chunk`    the extractor on such a chunk;
* `roundTrip_of_len`  metadata and signature come back, and the file can be cut back to either
                      stage, as long as an `int` can count the bytes of the file.
-/

set_option linter.unusedVariables false

namespace Fwtool
open Img Word CInt Blocks

/-! ## appending -/

def Kind.type : Kind → UInt8
  | .metadata => fwimageInfo
  | .signature => fwimageSignature

def Kind.maxlen : Kind → Nat
  | .metadata => metadataMaxlen
  | .signature => signatureMaxlen

/-- the bytes in front of the data -/
def Kind.hdr : Kind → List UInt8
  | .metadata => emptyHdr
  | .signature => []

/-- the trailer behind `file` and the payload `pl` -/
def newTrailer (file : List UInt8) (kind : Kind) (pl : List UInt8) : Trailer where
  magic := fwimageMagic
  crc32 := crc32Block 0xffffffff (file ++ pl)
  type := kind.type
  pad := [0, 0, 0]
  size := UInt32.ofNat (pl.length + trailerLen)

/-- a chunk as it is appended to `file` -/
def chunk (file : List UInt8) (kind : Kind) (data : List UInt8) : List UInt8 :=
  (kind.hdr ++ data) ++ (newTrailer file kind (kind.hdr ++ data)).bytes

theorem readFirmware_eq (bufs : List (List UInt8)) : ∀ (n : Int) (tr : Trailer), 0 ≤ n →
    n + bufs.flatten.length ≤ 2147483647 →
    readFirmware bufs n tr = some (n + bufs.flatten.length,
      { tr with crc32 := crc32Block tr.crc32 bufs.flatten }) := by
  induction bufs with
  | nil =>
    intro n tr _ _
    show some (n, tr) = some (n + 0, tr)
    rw [Int.add_zero]
  | cons b bufs ih =>
    intro n tr h0 hmax
    rw [List.flatten_cons, List.length_append] at hmax ⊢
    unfold readFirmware
    rw [intAdd_eq_some.mpr ⟨⟨by omega, by omega⟩, rfl⟩]
    show readFirmware bufs (n + b.length) (trailerUpdateCrc tr b) = _
    rw [ih _ _ (by omega) (by omega), crc32Block_append]
    congr 2
    push_cast
    omega

theorem readFirmware_overflow (bufs : List (List UInt8)) : ∀ (n : Int) (tr : Trailer), 0 ≤ n →
    n ≤ 2147483647 → 2147483647 < n + bufs.flatten.length → readFirmware bufs n tr = none := by
  induction bufs with
  | nil =>
    intro n tr _ h1 h2
    simp at h2
    omega
  | cons b bufs ih =>
    intro n tr h0 h1 h2
    rw [List.flatten_cons, List.length_append] at h2
    unfold readFirmware
    by_cases hr : n + b.length ≤ 2147483647
    · rw [intAdd_eq_some.mpr ⟨⟨by omega, hr⟩, rfl⟩]
      exact ih _ _ (by omega) hr (by push_cast at h2; omega)
    · have : intAdd n b.length = none := by
        unfold intAdd
        rw [if_neg fun h => hr h.2]
      rw [this]
      rfl

theorem appendData_eq (bufs : List (List UInt8)) : ∀ (out : List UInt8) (tr : Trailer)
    (maxlen : Int), bufs.flatten.length ≤ maxlen →
    appendData bufs out tr maxlen = (0, out ++ bufs.flatten,
      { tr with size := tr.size + UInt32.ofNat bufs.flatten.length,
                crc32 := crc32Block tr.crc32 bufs.flatten }) := by
  induction bufs with
  | nil =>
    intro out tr maxlen _
    show (0, out, tr) = (0, out ++ [], { tr with size := tr.size + 0, crc32 := tr.crc32 })
    rw [List.append_nil, UInt32.add_zero]
  | cons b bufs ih =>
    intro out tr maxlen h
    rw [List.flatten_cons, List.length_append] at h
    unfold appendData
    rw [if_neg (by push_cast at h; omega), ih _ _ _ (by push_cast at h; omega)]
    rw [List.flatten_cons, List.length_append, UInt32.ofNat_add, crc32Block_append,
      List.append_assoc, ← UInt32.add_assoc]
    rfl

theorem emptyHdr_length : emptyHdr.length = hdrLen := rfl

/-- the trailer in front of the data -/
def Kind.start (kind : Kind) (tr : Trailer) : Trailer :=
  { tr with type := kind.type, crc32 := crc32Block tr.crc32 kind.hdr,
            size := UInt32.ofNat (kind.hdr.length + trailerLen) }

/-- both kinds are one: a header, the data, and the trailer unless the data are too long -/
theorem addChunk_append (kind : Kind) (file : List UInt8) (tr : Trailer) (data : List UInt8) :
    addChunk kind file tr data
      = let r := appendData (blocks 512 data) (file ++ kind.hdr) (kind.start tr) kind.maxlen
        if r.1 ≠ 0 then (1, r.2.1) else (0, r.2.1 ++ r.2.2.bytes) := by
  cases kind with
  | metadata => rfl
  | signature =>
    rw [show file ++ Kind.signature.hdr = file from List.append_nil file]
    rfl

/-- both kinds, from what `append_data` does -/
theorem addChunk_eq (kind : Kind) (file : List UInt8) (tr : Trailer) (data : List UInt8)
    (hd : data.length ≤ kind.maxlen) :
    addChunk kind file tr data
      = (0, file ++ ((kind.hdr ++ data) ++ Trailer.bytes { tr with
          type := kind.type, crc32 := crc32Block tr.crc32 (kind.hdr ++ data),
          size := UInt32.ofNat ((kind.hdr ++ data).length + trailerLen) })) := by
  have hb := flatten_blocks 512 (by decide) data
  have hlen : (kind.hdr ++ data).length + trailerLen = kind.hdr.length + trailerLen + data.length := by
    rw [List.length_append]
    omega
  rw [addChunk_append]
  simp only
  rw [appendData_eq _ _ _ _ (by rw [hb]; exact_mod_cast hd), hb, if_neg (by simp), hlen,
    UInt32.ofNat_add (kind.hdr.length + trailerLen), crc32Block_append, List.append_assoc file,
    List.append_assoc file]
  rfl

/-- **`add_data`** appends one chunk. -/
theorem addData_eq (file : List UInt8) (kind : Kind) (data : List UInt8)
    (hf : file.length ≤ 2147483647) (hd : data.length ≤ kind.maxlen) :
    addData file kind data = some (0, file ++ chunk file kind data) := by
  have hb := flatten_blocks 512 (by decide) file
  unfold addData
  rw [readFirmware_eq _ _ _ (Int.le_refl 0) (by rw [hb]; omega), hb]
  simp only [Option.bind_eq_bind, Option.bind_some]
  rw [addChunk_eq kind file _ data hd]
  simp only [ne_eq, not_true, if_false]
  unfold chunk newTrailer
  rw [crc32Block_append _ file]
  rfl

theorem addData_overflow (file : List UInt8) (kind : Kind) (data : List UInt8)
    (hf : ¬ file.length ≤ 2147483647) : addData file kind data = none := by
  have hb := flatten_blocks 512 (by decide) file
  unfold addData
  rw [readFirmware_overflow _ _ _ (Int.le_refl 0) (by decide) (by rw [hb]; omega)]
  rfl

/-! ## the extractor on a chunk -/

theorem Trailer.bytes_length (tr : Trailer) (h : tr.pad.length = 3) :
    tr.bytes.length = trailerLen := by
  simp [Trailer.bytes, h, trailerLen]

theorem Trailer.ofBytes_bytes (tr : Trailer) (h : tr.pad.length = 3) :
    Trailer.ofBytes tr.bytes = tr := by
  obtain ⟨magic, crc, type, pad, size⟩ := tr
  have h' : pad.length = 3 := h
  have hp := put32_length true
  unfold Trailer.ofBytes Trailer.bytes
  simp only [Trailer.mk.injEq]
  refine ⟨?_, ?_, ?_, ?_, ?_⟩
  · have e : slice (put32 true magic ++ (put32 true crc ++ ([type] ++ (pad ++ put32 true size))))
        0 4 = put32 true magic := slice_of_split (a := []) rfl rfl (hp _)
    rw [e, get32_put32]
  · rw [slice_of_split (a := put32 true magic) (b := put32 true crc) rfl (hp _) (hp _),
      get32_put32]
  · rw [← List.append_assoc, List.getD_eq_getElem?_getD, List.getElem?_append_right (by simp)]
    simp
  · exact slice_of_split (a := put32 true magic ++ put32 true crc ++ [type])
      (c := put32 true size) (by simp) (by simp) h'
  · rw [slice_of_split (a := put32 true magic ++ put32 true crc ++ [type] ++ pad)
      (b := put32 true size) (c := []) (by simp) (by simp [h']) (hp _), get32_put32]

theorem toInt_size {n : Nat} (h : n ≤ bufLen) :
    toInt (UInt32.ofNat (n + trailerLen) - UInt32.ofNat trailerLen) = n := by
  have hB := bufLen_eq
  rw [UInt32.ofNat_add, UInt32.add_sub_cancel]
  unfold toInt
  rw [UInt32.toNat_ofNat', Nat.mod_eq_of_lt (by omega), if_pos (by omega)]

/-- one turn of the loop on a complete chunk -/
theorem tailLoop_chunk (kind : Kind) (crc : UInt32) (g fuel : Nat) {l l0 pl buf : List UInt8}
    {tr : Trailer} (hl : l = l0 ++ (pl ++ tr.bytes)) (hpad : tr.pad.length = 3)
    (hm : tr.magic = fwimageMagic) (hc : tr.crc32 = crc32Block crc (l0 ++ pl))
    (hs : tr.size = UInt32.ofNat (pl.length + trailerLen)) (hb : pl.length ≤ bufLen)
    (hne : l0 ++ pl ≠ []) :
    tailLoop kind crc g (fuel + 1) l buf
      = useChunk kind (tailLoop kind crc g fuel l0 (pl ++ buf.drop pl.length)) tr.type pl.length
          (g + l0.length : Nat) (pl ++ buf.drop pl.length) := by
  have h16 := tr.bytes_length hpad
  have hl' : l = (l0 ++ pl) ++ tr.bytes := by rw [hl, List.append_assoc]
  have hlen : l.length = (l0 ++ pl).length + trailerLen := by rw [hl', List.length_append, h16]
  have hk : l.length - trailerLen = (l0 ++ pl).length := by omega
  have htake : l.take (l.length - trailerLen) = l0 ++ pl := by rw [hk, hl', List.take_left]
  have hdrop : l.drop (l.length - trailerLen) = tr.bytes := by rw [hk, hl', List.drop_left]
  have hpay := takePayload_append l0 pl buf
  conv_lhs => unfold tailLoop
  rw [if_neg (by omega), htake, hdrop, tr.ofBytes_bytes hpad]
  simp only [hs, toInt_size hb]
  rw [if_neg (by rw [hm]; simp), if_neg hne, if_neg (by rw [hc]; simp), if_neg (by omega),
    if_neg (by omega), Int.toNat_natCast, hpay]

/-- the buffers hold every end of the file of at most `BUFLEN` bytes -/
theorem tailOf_append {a b : List UInt8} (hb : b.length ≤ bufLen) :
    ∃ l0, tailOf (a ++ b) = l0 ++ b ∧ headOf (a ++ b) ++ l0 = a ∧
      (b.length < bufLen → a ≠ [] → l0 ≠ []) := by
  have ht : min (a ++ b).length bufLen ≤ tailLen (a ++ b).length := by
    unfold tailLen
    split <;> omega
  have hle : tailLen (a ++ b).length ≤ (a ++ b).length := by
    unfold tailLen
    have := Nat.div_add_mod (a ++ b).length bufLen
    split
    · omega
    · next h =>
      have h1 : 1 ≤ (a ++ b).length / bufLen :=
        (Nat.one_le_div_iff (by decide)).mpr (by omega)
      have h2 : bufLen * 1 ≤ bufLen * ((a ++ b).length / bufLen) := Nat.mul_le_mul_left _ h1
      omega
  rw [List.length_append] at ht hle
  unfold tailOf headOf
  rw [List.length_append]
  refine ⟨a.drop (a.length + b.length - tailLen (a.length + b.length)), ?_, ?_, ?_⟩
  · rw [List.drop_append_of_le_length (by omega)]
  · rw [List.take_append_of_le_length (by omega), List.take_append_drop]
  · intro h1 h2 e
    have h3 := congrArg List.length e
    have h4 : 0 < a.length := List.length_pos_iff.mpr h2
    rw [List.length_drop] at h3
    simp only [List.length_nil] at h3
    omega

/-! ## the round trip -/

/-- metadata `m` and then a signature `s` are appended to `fw`; both come back, and `-t` cuts the
file back to what it was before -/
def RoundTrip (fw m s : List UInt8) : Prop :=
  ∃ f1 f2, addData fw .metadata m = some (0, f1) ∧ addData f1 .signature s = some (0, f2) ∧
    ∀ (heap : Heap) (trunc : Bool),
      extractData heap .metadata trunc f2 = some (0, m, if trunc = true then fw else f2) ∧
      extractData heap .signature trunc f2 = some (0, s, if trunc = true then f1 else f2)

theorem chunk_length (file : List UInt8) (kind : Kind) (data : List UInt8) :
    (chunk file kind data).length = kind.hdr.length + data.length + trailerLen := by
  unfold chunk
  rw [List.length_append, List.length_append, Trailer.bytes_length _ rfl]

theorem useChunk_signature (again : Option Result) (s buf : List UInt8) (fl : Int) :
    useChunk .signature again Kind.signature.type (Kind.signature.hdr ++ s).length fl
      ((Kind.signature.hdr ++ s) ++ buf) = some ⟨0, s, fl⟩ := by
  have hl : load (s ++ buf) 0 s.length = some s := load_split (a := []) rfl rfl rfl
  show useChunk .signature again fwimageSignature s.length fl (s ++ buf) = _
  unfold useChunk
  rw [if_pos rfl, if_neg (by simp), Int.toNat_natCast, hl]
  rfl

/-- `-i` steps over a signature -/
theorem useChunk_skip (again : Option Result) (n fl : Int) (buf : List UInt8) :
    useChunk .metadata again Kind.signature.type n fl buf = again := by
  show useChunk .metadata again fwimageSignature n fl buf = _
  unfold useChunk
  rw [if_pos rfl, if_pos (by simp)]

theorem useChunk_metadata (again : Option Result) (m buf : List UInt8) (fl : Int) :
    useChunk .metadata again Kind.metadata.type (Kind.metadata.hdr ++ m).length fl
      ((Kind.metadata.hdr ++ m) ++ buf) = some ⟨0, m, fl⟩ := by
  have hv : validateMetadata ((emptyHdr ++ m) ++ buf) = 0 := rfl
  have hl : ((emptyHdr ++ m).length : Int) - hdrLen = (m.length : Int) := by
    rw [List.length_append, emptyHdr_length]
    omega
  have hd : load ((emptyHdr ++ m) ++ buf) hdrLen m.length = some m :=
    load_split (List.append_assoc _ _ _) rfl rfl
  show useChunk .metadata again fwimageInfo (emptyHdr ++ m).length fl ((emptyHdr ++ m) ++ buf) = _
  unfold useChunk
  rw [if_neg (by decide), if_pos rfl, if_neg (by simp)]
  simp only [hv, hl]
  rw [if_neg (by simp), if_neg (by omega), Int.toNat_natCast, hd]
  rfl

/-- one turn of the loop on a chunk that was appended to `file` -/
theorem tailLoop_own (kind kind' : Kind) (fuel : Nat) {g file : List UInt8}
    (l0 data buf : List UInt8) (hg : g ++ l0 = file) (hd : (kind'.hdr ++ data).length ≤ bufLen)
    (hne : l0 ++ (kind'.hdr ++ data) ≠ []) :
    tailLoop kind (crc32Block 0xffffffff g) g.length (fuel + 1) (l0 ++ chunk file kind' data) buf
      = useChunk kind (tailLoop kind (crc32Block 0xffffffff g) g.length fuel l0
            ((kind'.hdr ++ data) ++ buf.drop (kind'.hdr ++ data).length))
          kind'.type (kind'.hdr ++ data).length file.length
          ((kind'.hdr ++ data) ++ buf.drop (kind'.hdr ++ data).length) := by
  have hc : (newTrailer file kind' (kind'.hdr ++ data)).crc32
      = crc32Block (crc32Block 0xffffffff g) (l0 ++ (kind'.hdr ++ data)) := by
    show crc32Block 0xffffffff (file ++ (kind'.hdr ++ data)) = _
    rw [← crc32Block_append, ← hg, List.append_assoc]
  have hfl : file.length = g.length + l0.length := by rw [← hg, List.length_append]
  rw [hfl]
  exact tailLoop_chunk kind _ g.length fuel rfl rfl rfl hc rfl hd hne

/-- **Round trip** for files whose length an `int` can hold. -/
theorem roundTrip_of_len (fw m s : List UInt8) (hm : m.length ≤ metadataMaxlen)
    (hs : s.length ≤ signatureMaxlen)
    (hlen : fw.length + m.length + s.length + 40 ≤ 2147483647) : RoundTrip fw m s := by
  have hB := bufLen_eq
  have h16 : trailerLen = 16 := rfl
  have h8 : emptyHdr.length = 8 := rfl
  have hm' : m.length ≤ 30720 := hm
  have hs' : s.length ≤ 1024 := hs
  let f1 := fw ++ chunk fw .metadata m
  let f2 := f1 ++ chunk f1 .signature s
  have hc1 : (chunk fw .metadata m).length = 8 + m.length + 16 := chunk_length _ _ _
  have hc2 : (chunk f1 .signature s).length = 0 + s.length + 16 := chunk_length _ _ _
  have hf1 : f1.length = fw.length + (8 + m.length + 16) := by
    show (fw ++ _).length = _
    rw [List.length_append, hc1]
  have hf2 : f2.length = f1.length + (0 + s.length + 16) := by
    show (f1 ++ _).length = _
    rw [List.length_append, hc2]
  refine ⟨f1, f2, addData_eq fw .metadata m (by omega) hm, addData_eq f1 .signature s (by omega) hs,
    fun heap trunc => ⟨?_, ?_⟩⟩
  · -- the signature is skipped, then the metadata is found
    obtain ⟨l0, ht, hh, -⟩ := tailOf_append (a := fw)
      (b := chunk fw .metadata m ++ chunk f1 .signature s) (by
        rw [List.length_append, hc1, hc2]
        omega)
    have hf : f2 = fw ++ (chunk fw .metadata m ++ chunk f1 .signature s) := List.append_assoc _ _ _
    obtain ⟨k, hk⟩ : ∃ k, f2.length + 1 = k + 1 + 1 := ⟨f2.length - 1, by omega⟩
    rw [← hf] at ht hh
    rw [← List.append_assoc] at ht
    have e1 := tailLoop_own .metadata .signature (k + 1) (g := headOf f2)
      (l0 ++ chunk fw .metadata m) s heap.buf.1
      (by rw [← List.append_assoc, hh]) (by show ([] ++ s).length ≤ _; rw [List.nil_append]; omega)
      (by
        intro e
        have := congrArg List.length e
        simp only [List.length_append, hc1, List.length_nil] at this
        omega)
    have e2 := fun buf => tailLoop_own .metadata .metadata k (g := headOf f2) l0 m buf hh
      (by show (emptyHdr ++ m).length ≤ _; rw [List.length_append]; omega)
      (by
        intro e
        have := congrArg List.length e
        simp only [List.length_append, Kind.hdr, h8, List.length_nil] at this
        omega)
    have e4 : f2.take fw.length = fw := by rw [hf, List.take_left]
    have e : tailLoop .metadata (crc32Block 0xffffffff (headOf f2)) (headOf f2).length
        (f2.length + 1) (tailOf f2) heap.buf.1 = some ⟨0, m, fw.length⟩ := by
      rw [hk, ht, e1, useChunk_skip, e2, useChunk_metadata]
    rw [extractData_eq heap _ _ _ (by omega), e, Option.map_some]
    simp only [true_and, Int.toNat_natCast, e4]
  · obtain ⟨l0, ht, hh, hne⟩ := tailOf_append (a := f1) (b := chunk f1 .signature s) (by
      rw [hc2]
      omega)
    have e1 := tailLoop_own .signature .signature f2.length (g := headOf f2) l0 s
      heap.buf.1 hh (by show ([] ++ s).length ≤ _; rw [List.nil_append]; omega)
      (by
        refine fun e => hne (by omega) ?_ (List.append_eq_nil_iff.mp e).1
        exact List.length_pos_iff.mp (by omega))
    have e4 : f2.take f1.length = f1 := List.take_left
    have e : tailLoop .signature (crc32Block 0xffffffff (headOf f2)) (headOf f2).length
        (f2.length + 1) (tailOf f2) heap.buf.1 = some ⟨0, s, f1.length⟩ := by
      rw [show tailOf f2 = l0 ++ chunk f1 .signature s from ht, e1, useChunk_signature]
    rw [extractData_eq heap _ _ _ (by omega), e, Option.map_some]
    simp only [true_and, Int.toNat_natCast, e4]

theorem roundTrip_of_len_bytes : RoundTrip [0x27, 0x05] [0x7b, 0x7d] [0x55] :=
  roundTrip_of_len _ _ _ (by decide) (by decide) (by decide)

/-- a file of 2 GiB: `file_len` overflows -/
theorem roundTrip_two_gib : List.replicate 2147483648 (0 : UInt8) ≠ [] ∧
    ¬ RoundTrip (List.replicate 2147483648 0) [] [] := by
  refine ⟨fun e => ?_, ?_⟩
  · have := congrArg List.length e
    rw [List.length_replicate] at this
    exact absurd this (by decide)
  · rintro ⟨f1, f2, e, -⟩
    rw [addData_overflow _ _ _ (by rw [List.length_replicate]; decide)] at e
    exact absurd e (by simp)

end Fwtool
