import Firmware.Fwtool.RoundTrip
import Firmware.Lib.Stdio

/-!
# fwtool: appending through a stream

`addData` computes what becomes of the file.  Here `add_data` runs on the stream that it reads the
firmware from, appends to and cuts back (`addDataTo`), for any policy by which the stream hands its
bytes over; the input comes from a stream as well.

* `addDataTo_eq`        the streams end with what `addData` computes;
* `addData_long`        an input that is too long leaves the file as it was;
* `cleanAppend_of_len`  both on the stream: a failed append leaves no trace, not even after
                        `fclose`, and a successful one adds header, input and trailer.
-/

set_option linter.unusedVariables false

namespace Fwtool
open Img Word CInt Blocks Stdio

/-! ## the code on streams -/

section
variable (policy : Policy UInt8)

/-- the loop of `append_data` -/
def appendDataTo : Nat → Stream UInt8 → Stream UInt8 → Trailer → Int →
    Option (Int × Stream UInt8 × Trailer)
  | 0, _, _, _, _ => none
  | fuel + 1, inp, out, tr, maxlen => do
    let (buf, inp) ← fread 512 inp
    if buf.length = 0 then some (0, out, tr)
    else
      let maxlen := maxlen - buf.length
      if maxlen < 0 then some (1, out, tr)
      else
        let tr := { tr with size := tr.size + UInt32.ofNat buf.length }
        let tr := trailerUpdateCrc tr buf
        let out ← fwrite policy buf out
        appendDataTo fuel inp out tr maxlen

/-- `fuel` bounds the turns of the loop in `append_data` -/
def addMetadataTo (fuel : Nat) (file : Stream UInt8) (tr : Trailer) (inp : Stream UInt8) :
    Option (Int × Stream UInt8) := do
  let tr := { tr with type := fwimageInfo, size := UInt32.ofNat (hdrLen + trailerLen) }
  let tr := trailerUpdateCrc tr emptyHdr
  let file ← fwrite policy emptyHdr file
  let (r, file, tr) ← appendDataTo policy fuel inp file tr metadataMaxlen
  if r ≠ 0 then some (1, file)
  else
    let file ← fwrite policy tr.bytes file
    some (0, file)

def addSignatureTo (fuel : Nat) (file : Stream UInt8) (tr : Trailer) (inp : Stream UInt8) :
    Option (Int × Stream UInt8) := do
  let tr := { tr with type := fwimageSignature, size := UInt32.ofNat trailerLen }
  let (r, file, tr) ← appendDataTo policy fuel inp file tr signatureMaxlen
  if r ≠ 0 then some (1, file)
  else
    let file ← fwrite policy tr.bytes file
    some (0, file)

def addChunkTo (fuel : Nat) (kind : Kind) (file : Stream UInt8) (tr : Trailer)
    (inp : Stream UInt8) : Option (Int × Stream UInt8) :=
  match kind with
  | .metadata => addMetadataTo policy fuel file tr inp
  | .signature => addSignatureTo policy fuel file tr inp

/-- the first loop of `add_data` -/
def readFirmwareFrom : Nat → Stream UInt8 → Int → Trailer → Option (Stream UInt8 × Int × Trailer)
  | 0, _, _, _ => none
  | fuel + 1, s, fileLen, tr => do
    let (buf, s) ← fread 512 s
    if buf.length = 0 then some (s, fileLen, tr)
    else
      let fileLen ← intAdd fileLen buf.length
      readFirmwareFrom fuel s fileLen (trailerUpdateCrc tr buf)

/-- the return value, and `firmware_file` as it is left to `cleanup` -/
def addDataTo (file : List UInt8) (kind : Kind) (data : List UInt8) :
    Option (Int × Stream UInt8) := do
  let (s, fileLen, tr) ← readFirmwareFrom (file.length + 1) (fopen file) 0 startTrailer
  let (ret, s) ← addChunkTo policy (data.length + 1) kind s tr (fopen data)
  if ret ≠ 0 then some (ret, ftruncate (fflush s) fileLen.toNat) else some (ret, s)

/-- **Appending cleanly**: no trace of a failure, neither when `add_data` returns nor when
`cleanup` has closed the file; header, input and trailer behind the old bytes otherwise. -/
def CleanAppend (file : List UInt8) (kind : Kind) (data : List UInt8) : Prop :=
  ∃ ret s, addDataTo policy file kind data = some (ret, s) ∧
    (ret ≠ 0 ↔ kind.maxlen < data.length) ∧
    (ret ≠ 0 → s.disk = file ∧ fclose s = file) ∧
    (ret = 0 → fclose s = file ++ chunk file kind data)

/-! ## the streams and the lists -/

/-- the loop over the firmware, which ends at the end of the file -/
theorem readFirmwareFrom_eq : ∀ (fuel : Nat) (s : Stream UInt8) (n : Int) (tr : Trailer),
    Reading s → s.rest.length < fuel →
    ∃ s', readFirmwareFrom fuel s n tr
        = (readFirmware (blocks 512 s.rest) n tr).map (fun r => (s', r.1, r.2)) ∧
      AtEnd s' ∧ s'.content = s.disk := by
  intro fuel
  induction fuel with
  | zero =>
    intro s n tr _ h
    omega
  | succ fuel ih =>
    intro s n tr hs hf
    obtain ⟨s₁, e, hs₁, hd₁, hr₁, hend⟩ := hs.fread 512
    unfold readFirmwareFrom
    rw [e]
    simp only [Option.bind_eq_bind, Option.bind_some]
    by_cases h0 : s.rest = []
    · have hend := hend (by rw [h0]; decide)
      refine ⟨s₁, ?_, hend, ?_⟩
      · rw [h0]
        rfl
      · rw [hend.content, hs₁.pending, List.append_nil, hd₁]
    · have hlen : 0 < s.rest.length := List.length_pos_iff.mpr h0
      obtain ⟨s', e', hend', hc'⟩ := ih s₁ (n + (s.rest.take 512).length)
        (trailerUpdateCrc tr (s.rest.take 512)) hs₁ (by rw [hr₁, List.length_drop]; omega)
      refine ⟨s', ?_, hend', hc'.trans hd₁⟩
      rw [if_neg (by rw [List.length_take]; omega), blocks_cons 512 (by decide) h0]
      unfold readFirmware
      unfold intAdd
      split
      · simp only [Option.bind_eq_bind, Option.bind_some]
        rw [e', hr₁]
      · rfl

/-- the loop over the input -/
theorem appendDataTo_eq : ∀ (fuel : Nat) (inp out : Stream UInt8) (tr : Trailer) (maxlen : Int),
    Reading inp → AtEnd out → inp.rest.length < fuel →
    ∃ out', appendDataTo policy fuel inp out tr maxlen
        = some ((appendData (blocks 512 inp.rest) out.content tr maxlen).1, out',
            (appendData (blocks 512 inp.rest) out.content tr maxlen).2.2) ∧
      AtEnd out' ∧
      out'.content = (appendData (blocks 512 inp.rest) out.content tr maxlen).2.1 := by
  intro fuel
  induction fuel with
  | zero =>
    intro inp out tr maxlen _ _ h
    omega
  | succ fuel ih =>
    intro inp out tr maxlen hi ho hf
    obtain ⟨inp₁, e, hi₁, -, hr₁, -⟩ := hi.fread 512
    unfold appendDataTo
    rw [e]
    simp only [Option.bind_eq_bind, Option.bind_some]
    by_cases h0 : inp.rest = []
    · rw [h0]
      exact ⟨out, rfl, ho, rfl⟩
    · have hlen : 0 < inp.rest.length := List.length_pos_iff.mpr h0
      rw [if_neg (by rw [List.length_take]; omega), blocks_cons 512 (by decide) h0]
      unfold appendData
      simp only
      split
      · exact ⟨out, rfl, ho, rfl⟩
      · obtain ⟨out₁, ew, ho₁, hc₁⟩ := ho.fwrite policy (inp.rest.take 512)
        rw [ew, ← hc₁, ← hr₁]
        exact ih inp₁ out₁ _ _ hi₁ ho₁ (by rw [hr₁, List.length_drop]; omega)

theorem rest_fopen (file : List UInt8) : (fopen file).rest = file := List.drop_zero

/-- both kinds are one: behind the header, the loop and the trailer -/
theorem addChunkTo_append (kind : Kind) {s : Stream UInt8} (hs : AtEnd s) (fuel : Nat)
    (tr : Trailer) (inp : Stream UInt8) :
    ∃ s₁, AtEnd s₁ ∧ s₁.content = s.content ++ kind.hdr ∧
      addChunkTo policy fuel kind s tr inp
        = (appendDataTo policy fuel inp s₁ (kind.start tr) kind.maxlen).bind fun r =>
          if r.1 ≠ 0 then some (1, r.2.1)
          else (fwrite policy r.2.2.bytes r.2.1).bind fun file => some (0, file) := by
  cases kind with
  | metadata =>
    obtain ⟨s₁, ew, hs₁, hc₁⟩ := hs.fwrite policy emptyHdr
    refine ⟨s₁, hs₁, hc₁, ?_⟩
    show addMetadataTo policy fuel s tr inp = _
    unfold addMetadataTo
    simp only [ew, Option.bind_eq_bind, Option.bind_some]
    rfl
  | signature => exact ⟨s, hs, (List.append_nil _).symm, rfl⟩

theorem addChunkTo_eq (kind : Kind) {s : Stream UInt8} (hs : AtEnd s) (tr : Trailer)
    (data : List UInt8) :
    ∃ s', addChunkTo policy (data.length + 1) kind s tr (fopen data)
        = some ((addChunk kind s.content tr data).1, s') ∧
      AtEnd s' ∧ s'.content = (addChunk kind s.content tr data).2 := by
  have hr := rest_fopen data
  obtain ⟨s₁, hs₁, hc₁, e₁⟩ := addChunkTo_append policy kind hs (data.length + 1) tr (fopen data)
  obtain ⟨s₂, e₂, hs₂, hc₂⟩ := appendDataTo_eq policy (data.length + 1) (fopen data) s₁
    (kind.start tr) kind.maxlen (reading_fopen data) hs₁ (by rw [hr]; omega)
  rw [hr, hc₁] at e₂ hc₂
  rw [e₁, e₂, addChunk_append]
  simp only [Option.bind_some]
  generalize appendData (blocks 512 data) (s.content ++ kind.hdr) (kind.start tr) kind.maxlen = r
    at hc₂ ⊢
  by_cases h0 : r.1 ≠ 0
  · rw [if_pos h0, if_pos h0]
    exact ⟨s₂, rfl, hs₂, hc₂⟩
  · obtain ⟨s₃, e₃, hs₃, hc₃⟩ := hs₂.fwrite policy r.2.2.bytes
    rw [if_neg h0, if_neg h0, e₃]
    exact ⟨s₃, rfl, hs₃, by rw [hc₃, hc₂]⟩

/-! ## an input that is too long -/

theorem appendData_front (bufs : List (List UInt8)) : ∀ (out : List UInt8) (tr : Trailer)
    (maxlen : Int), ∃ x, (appendData bufs out tr maxlen).2.1 = out ++ x := by
  induction bufs with
  | nil => exact fun out tr maxlen => ⟨[], (List.append_nil out).symm⟩
  | cons b bufs ih =>
    intro out tr maxlen
    unfold appendData
    simp only
    split
    · exact ⟨[], (List.append_nil out).symm⟩
    · obtain ⟨x, hx⟩ := ih (out ++ b)
        (trailerUpdateCrc { tr with size := tr.size + UInt32.ofNat b.length } b)
        (maxlen - b.length)
      exact ⟨b ++ x, by rw [hx, List.append_assoc]⟩

theorem appendData_long (bufs : List (List UInt8)) : ∀ (out : List UInt8) (tr : Trailer)
    (maxlen : Int), 0 ≤ maxlen → maxlen < bufs.flatten.length →
    (appendData bufs out tr maxlen).1 = 1 := by
  induction bufs with
  | nil =>
    intro out tr maxlen h0 h
    simp at h
    omega
  | cons b bufs ih =>
    intro out tr maxlen h0 h
    rw [List.flatten_cons, List.length_append] at h
    unfold appendData
    simp only
    split
    · rfl
    · exact ih _ _ _ (by omega) (by push_cast at h; omega)

/-- the old bytes stay in front, whatever comes of the input -/
theorem addChunk_front (kind : Kind) (file : List UInt8) (tr : Trailer) (data : List UInt8) :
    ∃ x, (addChunk kind file tr data).2 = file ++ x := by
  obtain ⟨x, hx⟩ := appendData_front (blocks 512 data) (file ++ kind.hdr) (kind.start tr)
    kind.maxlen
  rw [addChunk_append]
  simp only
  split
  · exact ⟨kind.hdr ++ x, by rw [hx, List.append_assoc]⟩
  · exact ⟨_, by rw [hx, List.append_assoc, List.append_assoc]⟩

theorem addChunk_long (kind : Kind) (file : List UInt8) (tr : Trailer) {data : List UInt8}
    (hd : kind.maxlen < data.length) : (addChunk kind file tr data).1 = 1 := by
  have hb : kind.maxlen < (blocks 512 data).flatten.length := by
    rwa [flatten_blocks 512 (by decide)]
  have h := appendData_long (blocks 512 data) (file ++ kind.hdr) (kind.start tr) kind.maxlen
    (Int.natCast_nonneg _) (Int.ofNat_lt.mpr hb)
  rw [addChunk_append]
  simp only
  rw [if_pos (by rw [h]; decide)]

/-- **The file is cut back** to what it was. -/
theorem addData_long {file : List UInt8} (kind : Kind) {data : List UInt8}
    (hf : file.length ≤ 2147483647) (hd : kind.maxlen < data.length) :
    addData file kind data = some (1, file) := by
  have hb := flatten_blocks 512 (by decide) file
  unfold addData
  rw [readFirmware_eq _ _ _ (Int.le_refl 0) (by rw [hb]; omega), hb]
  simp only [Option.bind_eq_bind, Option.bind_some]
  generalize ({ startTrailer with crc32 := crc32Block startTrailer.crc32 file } : Trailer) = tr
  obtain ⟨x, hx⟩ := addChunk_front kind file tr data
  rw [addChunk_long kind file tr hd, hx, if_pos (by decide), Int.zero_add, Int.toNat_natCast,
    List.take_left]

/-! ## both on the stream -/

/-- **The streams end with what `addData` computes.** -/
theorem addDataTo_eq {file : List UInt8} (kind : Kind) {data : List UInt8}
    (hf : file.length ≤ 2147483647) :
    ∃ ret new s, addData file kind data = some (ret, new) ∧
      addDataTo policy file kind data = some (ret, s) ∧ fclose s = new ∧
      (ret ≠ 0 → s.disk = new) := by
  have hb := flatten_blocks 512 (by decide) file
  have hrf := readFirmware_eq (blocks 512 file) 0 startTrailer (Int.le_refl 0)
    (by rw [hb]; omega)
  obtain ⟨s₁, e₁, hs₁, hc₁⟩ := readFirmwareFrom_eq (file.length + 1) (fopen file) 0 startTrailer
    (reading_fopen file) (by rw [rest_fopen]; omega)
  rw [rest_fopen, hrf] at e₁
  rw [hb] at hrf e₁
  unfold addData addDataTo
  rw [hrf, e₁]
  simp only [Option.bind_eq_bind, Option.bind_some, Option.map_some]
  generalize ({ startTrailer with crc32 := crc32Block startTrailer.crc32 file } : Trailer) = tr
  obtain ⟨s₂, e₂, hs₂, hc₂⟩ := addChunkTo_eq policy kind hs₁ tr data
  rw [show s₁.content = file from hc₁] at e₂ hc₂
  obtain ⟨x, hx⟩ := addChunk_front kind file tr data
  rw [e₂]
  simp only [Option.bind_some]
  by_cases hr : (addChunk kind file tr data).1 ≠ 0
  · rw [if_pos hr, if_pos hr]
    obtain ⟨hd, hp⟩ := hs₂.fflush
    rw [hc₂] at hd
    have ht : (ftruncate (fflush s₂) (0 + (file.length : Int)).toNat).disk
        = (addChunk kind file tr data).2.take (0 + (file.length : Int)).toNat := by
      rw [ftruncate_disk (by rw [hd, hx, List.length_append]; omega), hd]
    have hp' : (ftruncate (fflush s₂) (0 + (file.length : Int)).toNat).pending = [] := hp
    exact ⟨_, _, _, rfl, rfl, (fclose_of_pending hp').trans ht, fun _ => ht⟩
  · rw [if_neg hr, if_neg hr]
    exact ⟨_, _, _, rfl, rfl, hs₂.fclose.trans hc₂, fun h => absurd h hr⟩

theorem addDataTo_overflow {file : List UInt8} (kind : Kind) (data : List UInt8)
    (hf : ¬ file.length ≤ 2147483647) : addDataTo policy file kind data = none := by
  obtain ⟨s₁, e₁, -⟩ := readFirmwareFrom_eq (file.length + 1) (fopen file) 0 startTrailer
    (reading_fopen file) (by rw [rest_fopen]; omega)
  rw [rest_fopen, readFirmware_overflow _ _ _ (Int.le_refl 0) (by decide)
    (by rw [flatten_blocks 512 (by decide)]; omega)] at e₁
  unfold addDataTo
  rw [e₁]
  rfl

/-- **Appending** to a file whose length an `int` can hold, whatever the stream holds back. -/
theorem cleanAppend_of_len (file : List UInt8) (kind : Kind) (data : List UInt8)
    (hf : file.length ≤ 2147483647) : CleanAppend policy file kind data := by
  obtain ⟨ret, new, s, e, es, hc, hd⟩ := @addDataTo_eq policy file kind data hf
  refine ⟨ret, s, es, ?_⟩
  by_cases hlen : data.length ≤ kind.maxlen
  · obtain ⟨rfl, rfl⟩ := Prod.mk.inj
      (Option.some.inj (e.symm.trans (addData_eq file kind data hf hlen)))
    exact ⟨⟨fun h => absurd rfl h, fun h => by omega⟩, fun h => absurd rfl h, fun _ => hc⟩
  · obtain ⟨rfl, rfl⟩ := Prod.mk.inj
      (Option.some.inj (e.symm.trans (addData_long kind hf (by omega))))
    exact ⟨⟨fun _ => by omega, fun _ => by decide⟩, fun _ => ⟨hd (by decide), hc⟩,
      fun h => absurd h (by decide)⟩

theorem cleanAppend_of_len_bytes :
    CleanAppend (fun s => s.pending.length / 2) [1, 2, 3] .metadata [65, 66] :=
  cleanAppend_of_len _ _ _ _ (by decide)

end

/-- the length of a file of 2 GiB does not fit an `int` -/
theorem cleanAppend_two_gib :
    ¬ CleanAppend (fun _ => 0) (List.replicate 2147483648 0) .metadata [] := by
  rintro ⟨ret, s, e, -⟩
  rw [addDataTo_overflow _ _ _ (by rw [List.length_replicate]; decide)] at e
  exact absurd e (by simp)

end Fwtool
