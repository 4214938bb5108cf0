import Firmware.Oseama.Seama

/-!
# oseama: entities are what the options say, and extraction gives them back

* `metaBlock`, `imageData`   what the options of `oseama entity` mean;
* `Entity`, `Seal`           well-formed entities and seals, and their bytes;
* `foldl_appendMeta`, `foldl_appendImage`   the two passes write and count just that;
* `entity_eq`                the file is an entity;
* `extractEntity_row`        the sizes in the headers lead to every entity of a row.
-/

set_option linter.unusedVariables false

namespace Oseama
open Img Word

variable {malloc : Nat → Bool}

/-! ## entities -/

/-- the string, its NUL, and zeros up to a multiple of 4 bytes -/
def metaEntry (t : CStr) : List UInt8 := (t.bytes ++ [0]) ++ zeros ((4 - (t.length + 1) % 4) % 4)

def metaBlock : List Opt → List UInt8
  | [] => []
  | .m optarg :: os => metaEntry optarg ++ metaBlock os
  | .f _ :: os => metaBlock os
  | .b _ :: os => metaBlock os

/-- the data, from offset `o` on: the files, and zeros up to the offsets that lie ahead -/
def imageData : Nat → List Opt → List UInt8
  | _, [] => []
  | o, .m _ :: os => imageData o os
  | o, .f content :: os => content.getD [] ++ imageData (o + (content.getD []).length) os
  | o, .b n :: os => zeros (n.val - o).toNat ++ imageData (o + (n.val - o).toNat) os

/-- a meta block and data whose lengths fit the header -/
structure Entity where
  metaBytes : List UInt8
  data : List UInt8
  meta_lt : metaBytes.length < 65536
  data_lt : data.length < 4294967296

namespace Entity

def header (e : Entity) : EntityHeader :=
  ⟨seamaMagic, UInt16.ofNat e.metaBytes.length, UInt32.ofNat e.data.length, Md5.md5 e.data⟩

def bytes (e : Entity) : List UInt8 := e.header.bytes ++ (e.metaBytes ++ e.data)

theorem metasize_eq (e : Entity) : e.header.metasize.toNat = e.metaBytes.length :=
  UInt16.toNat_ofNat_of_lt' e.meta_lt

theorem imagesize_eq (e : Entity) : e.header.imagesize.toNat = e.data.length :=
  UInt32.toNat_ofNat_of_lt' e.data_lt

theorem header_length (e : Entity) : e.header.bytes.length = entityLen := by
  unfold EntityHeader.bytes
  simp only [List.length_append, put32_length, put16_length, header, Md5.md5_length, entityLen]

theorem bytes_length (e : Entity) :
    e.bytes.length = entityLen + e.metaBytes.length + e.data.length := by
  unfold bytes
  rw [List.length_append, List.length_append, header_length, Nat.add_assoc]

end Entity

/-- the meta block of a container -/
structure Seal where
  metaBytes : List UInt8
  meta_lt : metaBytes.length < 65536

namespace Seal

def header (s : Seal) : SealHeader := ⟨seamaMagic, UInt16.ofNat s.metaBytes.length, 0⟩

def container (s : Seal) (es : List Entity) : List UInt8 :=
  s.header.bytes ++ (s.metaBytes ++ (es.map Entity.bytes).flatten)

theorem header_length (s : Seal) : s.header.bytes.length = sealLen := by
  unfold SealHeader.bytes
  simp only [List.length_append, put32_length, put16_length, sealLen]

end Seal

/-! ## the two passes -/

/-- small blocks are there, and no address space holds 2^62 bytes -/
structure Memory (malloc : Nat → Bool) : Prop where
  small : ∀ n, 0 < n → n < 2147483648 → malloc n = true
  large : ∀ n, 4611686018427387904 ≤ n → malloc n = false

/-- the meta block `m` and the data `d` are written and counted -/
def written (m d : List UInt8) : St :=
  ⟨m ++ d, entityLen + m.length + d.length, m.length, d.length⟩

theorem size_of_lt {n : Nat} (h : n < 4294967296) : size n = n := Nat.mod_eq_of_lt (by omega)

theorem putMeta_written {m d : List UInt8} (h : (m ++ d).length < 65536) :
    (written m []).putMeta (some d) = written (m ++ d) [] := by
  rw [List.length_append] at h
  unfold written St.putMeta
  simp only [List.append_nil, List.length_append, List.length_nil, Nat.add_zero, entityLen]
  rw [size_of_lt (by omega), size_of_lt (by omega), Nat.add_assoc]

theorem putImage_written {m d e : List UInt8} (hm : m.length < 65536)
    (h : (d ++ e).length < 2147483648) :
    (written m d).putImage (some e) = written m (d ++ e) := by
  rw [List.length_append] at h
  unfold written St.putImage
  simp only [List.append_assoc, List.length_append, entityLen]
  rw [size_of_lt (by omega), size_of_lt (by omega), Nat.add_assoc (28 + m.length)]

theorem metaEntry_length (t : CStr) : (metaEntry t).length % 4 = 0 := by
  unfold metaEntry
  rw [List.length_append, List.length_append, zeros_length, List.length_singleton]
  show (t.length + 1 + (4 - (t.length + 1) % 4) % 4) % 4 = 0
  omega

/-- the header is 28 bytes long: aligned offsets are aligned in the meta block -/
theorem align_eq (hm : Memory malloc) {o n : Nat} (ho : o % 4 = n % 4) :
    align malloc o 4 = some (zeros ((4 - n % 4) % 4)) := by
  unfold align
  split
  · next hz => rw [show (4 - n % 4) % 4 = 0 by omega]; rfl
  · next hz =>
    unfold appendZeros
    rw [if_pos (hm.small _ (by omega) (by omega)), show (4 - n % 4) % 4 = 4 - o % 4 by omega]

theorem appendMeta_m (hm : Memory malloc) {m : List UInt8} {t : CStr} (h4 : m.length % 4 = 0)
    (h : (m ++ metaEntry t).length < 65536) :
    appendMeta malloc (written m []) (.m t) = written (m ++ metaEntry t) [] := by
  have h1 : (m ++ (t.bytes ++ [0])).length < 65536 := by
    refine Nat.lt_of_le_of_lt ?_ h
    simp only [metaEntry, List.length_append]
    omega
  show (St.putMeta _ _).putMeta (align malloc (St.putMeta _ _).currOffset 4) = _
  rw [putMeta_written h1, align_eq (n := t.length + 1) hm (by
    show (entityLen + (m ++ (t.bytes ++ [0])).length + 0) % 4 = (t.length + 1) % 4
    rw [List.length_append, List.length_append, List.length_singleton]
    show (28 + (m.length + (t.length + 1)) + 0) % 4 = _
    omega), putMeta_written (by rw [List.append_assoc]; exact h), List.append_assoc]
  rfl

/-- **The first pass** writes the meta block. -/
theorem foldl_appendMeta (hm : Memory malloc) (opts : List Opt) {m : List UInt8}
    (h4 : m.length % 4 = 0) (h : (m ++ metaBlock opts).length < 65536) :
    opts.foldl (appendMeta malloc) (written m []) = written (m ++ metaBlock opts) [] := by
  induction opts generalizing m with
  | nil => rw [List.foldl_nil, metaBlock, List.append_nil]
  | cons o os ih =>
    rw [List.foldl_cons]
    cases o with
    | m t =>
      have hmeta : metaBlock (.m t :: os) = metaEntry t ++ metaBlock os := rfl
      have hlt : (m ++ metaEntry t).length < 65536 := by
        rw [hmeta, ← List.append_assoc, List.length_append] at h
        omega
      rw [appendMeta_m hm h4 hlt, hmeta, ← List.append_assoc]
      refine ih ?_ ?_
      · rw [List.length_append, Nat.add_mod, h4, metaEntry_length]
      · rw [List.append_assoc, ← hmeta]
        exact h
    | f content => exact ih h4 h
    | b n => exact ih h4 h

theorem appendImage_f {m d : List UInt8} {content : Option (List UInt8)} (hmeta : m.length < 65536)
    (h : (d ++ content.getD []).length < 2147483648) :
    appendImage malloc (written m d) (.f content) = written m (d ++ content.getD []) := by
  cases content with
  | none =>
    rw [Option.getD_none, List.append_nil]
    rfl
  | some c => exact putImage_written hmeta h

/-- an offset that is behind; the difference may wrap around, then `malloc` fails -/
theorem appendImage_behind (hm : Memory malloc) {s : St} {n : Long} (hc : s.currOffset < 4294967296)
    (h : n.val < s.currOffset) : appendImage malloc s (.b n) = s := by
  have hr := n.inRange
  show (if ssize (n.val - s.currOffset) < 0 then s else _) = s
  by_cases hneg : ssize (n.val - s.currOffset) < 0
  · rw [if_pos hneg]
  · have hlarge : 4611686018427387904 ≤ (ssize (n.val - s.currOffset)).toNat := by
      unfold ssize at hneg ⊢
      omega
    rw [if_neg hneg]
    unfold appendZeros
    rw [hm.large _ hlarge]
    rfl

theorem appendImage_b (hm : Memory malloc) {m d : List UInt8} {n : Long} (hmeta : m.length < 65536)
    (h : (d ++ zeros (n.val - (written m d).currOffset).toNat).length < 2147483648) :
    appendImage malloc (written m d) (.b n)
      = written m (d ++ zeros (n.val - (written m d).currOffset).toNat) := by
  have hr := n.inRange
  have ho : (written m d).currOffset = 28 + m.length + d.length := rfl
  rw [List.length_append, zeros_length] at h
  by_cases hlt : n.val < (written m d).currOffset
  · rw [appendImage_behind hm (by omega) hlt,
      show (n.val - (written m d).currOffset).toNat = 0 by omega]
    show _ = written m (d ++ [])
    rw [List.append_nil]
  · have hs : ssize (n.val - (written m d).currOffset) = n.val - (written m d).currOffset := by
      unfold ssize
      omega
    show (if ssize (n.val - (written m d).currOffset) < 0 then written m d else _) = _
    rw [hs, if_neg (by omega)]
    unfold appendZeros
    by_cases hz : (n.val - (written m d).currOffset).toNat = 0
    · rw [hz]
      show _ = written m (d ++ [])
      split
      · exact putImage_written hmeta (by rw [List.length_append, zeros_length]; omega)
      · rw [List.append_nil]
        rfl
    · rw [if_pos (hm.small _ (by omega) (by omega))]
      exact putImage_written hmeta (by rw [List.length_append, zeros_length]; omega)

/-- **The second pass** writes the data. -/
theorem foldl_appendImage (hm : Memory malloc) (opts : List Opt) {m d : List UInt8}
    (hmeta : m.length < 65536)
    (h : (d ++ imageData (written m d).currOffset opts).length < 2147483648) :
    opts.foldl (appendImage malloc) (written m d)
      = written m (d ++ imageData (written m d).currOffset opts) := by
  induction opts generalizing d with
  | nil => rw [List.foldl_nil, imageData, List.append_nil]
  | cons o os ih =>
    have hcurr (e : List UInt8) :
        (written m d).currOffset + e.length = (written m (d ++ e)).currOffset := by
      show entityLen + m.length + d.length + e.length = entityLen + m.length + (d ++ e).length
      rw [List.length_append]
      omega
    -- what an option writes, and what the others do behind it
    have hgo (e : List UInt8) (he : imageData (written m d).currOffset (o :: os)
          = e ++ imageData ((written m d).currOffset + e.length) os)
        (hs : (d ++ e).length < 2147483648 →
          appendImage malloc (written m d) o = written m (d ++ e)) :
        (o :: os).foldl (appendImage malloc) (written m d)
          = written m (d ++ imageData (written m d).currOffset (o :: os)) := by
      rw [he, hcurr e, ← List.append_assoc] at h ⊢
      rw [List.foldl_cons, hs (by rw [List.length_append] at h; omega)]
      exact ih h
    cases o with
    | m t => exact ih h
    | f content => exact hgo (content.getD []) rfl (appendImage_f hmeta)
    | b n =>
      refine hgo (zeros (n.val - (written m d).currOffset).toNat) ?_ (appendImage_b hm hmeta)
      rw [zeros_length]
      rfl

/-! ## the header -/

theorem writeHdr_eq (buf : Md5.Buffer) (e : Entity) (h : e.data.length < 2147483648) :
    writeHdr buf (written e.metaBytes e.data) = e.bytes := by
  have hskip : (zeros entityLen ++ (e.metaBytes ++ e.data)).drop
      (size (entityLen + e.metaBytes.length)) = e.data := by
    have := e.meta_lt
    rw [size_of_lt (by unfold entityLen; omega), ← List.append_assoc]
    exact List.drop_left' (by rw [List.length_append, zeros_length])
  obtain ⟨pieces, h1, h2⟩ := Fread.loop_eq (k := 128) (f := Md5.update) (by decide)
    (Nat.lt_succ_self e.data.length) e.data (Md5.init buf)
  rw [List.take_length] at h1
  unfold writeHdr
  dsimp only [written]
  rw [hskip, h2]
  dsimp only
  rw [Md5.final_updates, h1]
  rfl

/-! ## extracting -/

theorem EntityHeader.read (h : EntityHeader) (hl : h.md5.length = 16) (r : List UInt8) :
    (h.bytes ++ r).take entityLen = h.bytes ∧ get32 true (slice h.bytes 0 4) = h.magic ∧
      get16 true (slice h.bytes 6 2) = h.metasize ∧ get32 true (slice h.bytes 8 4) = h.imagesize := by
  have h4 : h.bytes = (put32 true h.magic ++ put16 true 0) ++ (put16 true h.metasize ++
      (put32 true h.imagesize ++ h.md5)) := by simp only [EntityHeader.bytes, List.append_assoc]
  have h8 : h.bytes = (put32 true h.magic ++ put16 true 0 ++ put16 true h.metasize) ++
      (put32 true h.imagesize ++ h.md5) := by simp only [EntityHeader.bytes, List.append_assoc]
  refine ⟨List.take_left' ?_, ?_, ?_, ?_⟩
  · unfold EntityHeader.bytes
    simp only [List.length_append, put32_length, put16_length, hl, entityLen]
  · rw [show slice h.bytes 0 4 = put32 true h.magic from
      slice_of_split (a := []) rfl rfl (put32_length true h.magic), get32_put32]
  · rw [slice_of_split h4 (by simp) (put16_length true h.metasize), get16_put16]
  · rw [slice_of_split h8 (by simp) (put32_length true h.imagesize), get32_put32]

variable {entityIdx : Int} {fuel : Nat} {i : Int}

/-- the sizes in the header lead behind the entity -/
theorem extractEntity_skip (e : Entity) (h : i ≠ entityIdx) (r : List UInt8) :
    extractEntity entityIdx (fuel + 1) i (e.bytes ++ r) = extractEntity entityIdx fuel (i + 1) r := by
  obtain ⟨h0, h1, h2, h3⟩ := e.header.read (Md5.md5_length _) (e.metaBytes ++ e.data ++ r)
  rw [← List.append_assoc, ← Entity.bytes] at h0
  have hdrop : (e.bytes ++ r).drop (entityLen + (e.metaBytes.length + e.data.length)) = r :=
    List.drop_left' (by rw [e.bytes_length, Nat.add_assoc])
  rw [extractEntity]
  simp only [h0, h1, h2, h3, e.header_length, e.metasize_eq, e.imagesize_eq, hdrop]
  rw [if_neg (by simp), if_neg (by simp [Entity.header]), if_pos h]

theorem extractEntity_hit (e : Entity) (r : List UInt8) :
    extractEntity i (fuel + 1) i (e.bytes ++ r) = (0, e.bytes) := by
  obtain ⟨h0, h1, h2, h3⟩ := e.header.read (Md5.md5_length _) (e.metaBytes ++ e.data ++ r)
  rw [← List.append_assoc, ← Entity.bytes] at h0
  have hl := e.bytes_length
  rw [extractEntity]
  simp only [h0, h1, h2, h3, e.header_length, e.metasize_eq, e.imagesize_eq]
  rw [if_neg (by simp), if_neg (by simp [Entity.header]), if_neg (by simp), ← hl,
    Fread.loop_append (by decide) (Nat.lt_succ_self _), List.take_left, List.length_append]
  dsimp only
  rw [if_neg (by omega), List.nil_append]

/-- **A row of entities** -/
theorem extractEntity_row (fuel : Nat) (es : List Entity) (k : Nat) (hk : k < es.length)
    (hf : k < fuel) :
    extractEntity (i + k) fuel i (es.map Entity.bytes).flatten
      = (0, (es.get ⟨k, hk⟩).bytes) := by
  induction es generalizing i k fuel with
  | nil => exact absurd hk (by simp)
  | cons e es ih =>
    obtain ⟨fuel, rfl⟩ : ∃ n, fuel = n + 1 := ⟨fuel - 1, by omega⟩
    rw [List.map_cons, List.flatten_cons]
    cases k with
    | zero =>
      rw [show i + (0 : Nat) = i by omega]
      exact extractEntity_hit e _
    | succ k =>
      rw [extractEntity_skip e (by omega), show i + (k + 1 : Nat) = i + 1 + k by omega]
      exact ih fuel k (Nat.lt_of_succ_lt_succ hk) (Nat.lt_of_succ_lt_succ hf)

theorem length_le_bytes (es : List Entity) :
    es.length ≤ (es.map Entity.bytes).flatten.length := by
  induction es with
  | nil => exact Nat.le_refl _
  | cons e es ih =>
    rw [List.map_cons, List.flatten_cons, List.length_append, e.bytes_length, List.length_cons]
    unfold entityLen
    omega

theorem extract_container (s : Seal) (es : List Entity) (k : Nat) (hk : k < es.length) :
    extract (s.container es) k = (0, some (es.get ⟨k, hk⟩).bytes) := by
  have h0 : (s.container es).take sealLen = s.header.bytes := List.take_left' s.header_length
  have h1 : get16 true (slice s.header.bytes 6 2) = UInt16.ofNat s.metaBytes.length := by
    rw [slice_of_split (a := put32 true s.header.magic ++ put16 true 0)
      (b := put16 true s.header.metasize) (c := put32 true s.header.imagesize)
      (by simp only [SealHeader.bytes, List.append_assoc]) (by simp) (by simp), get16_put16]
    rfl
  have h2 : (s.container es).drop (sealLen + s.metaBytes.length) = (es.map Entity.bytes).flatten := by
    rw [Seal.container, ← List.append_assoc]
    exact List.drop_left' (by rw [List.length_append, s.header_length])
  have hlen : es.length ≤ (s.container es).length := by
    refine Nat.le_trans (length_le_bytes es) ?_
    rw [Seal.container, List.length_append, List.length_append]
    omega
  have hrow := extractEntity_row (i := 0) ((s.container es).length + 1) es k hk (by omega)
  rw [show (0 : Int) + k = k by omega] at hrow
  unfold extract
  simp only [h0, h1, s.header_length, UInt16.toNat_ofNat_of_lt' s.meta_lt, h2, hrow]
  rw [if_neg (by omega), if_neg (by simp)]

/-! ## both together -/

theorem entity_eq (hm : Memory malloc) (buf : Md5.Buffer) (opts : List Opt) (e : Entity)
    (h1 : e.metaBytes = metaBlock opts)
    (h2 : e.data = imageData (entityLen + (metaBlock opts).length) opts)
    (h : e.data.length < 2147483648) : entity malloc buf opts = e.bytes := by
  have hmeta := e.meta_lt
  rw [h1] at hmeta
  have hp1 := foldl_appendMeta hm opts (m := []) rfl hmeta
  have hp2 := foldl_appendImage hm opts (m := metaBlock opts) (d := []) hmeta
    (h2 ▸ h)
  unfold entity
  rw [show st0 = written [] [] from rfl, hp1, List.nil_append, hp2, List.nil_append,
    show imageData (written (metaBlock opts) []).currOffset opts = e.data from h2.symm, ← h1]
  exact writeHdr_eq buf e h

theorem imageData_behind {o : Nat} {n : Long} (h : n.val ≤ o) (os : List Opt) :
    imageData o (.b n :: os) = imageData o os := by
  rw [imageData, show (n.val - o).toNat = 0 by omega]
  rfl

/-- **Creation and extraction**: the header of a created entity counts the meta block and the data
that follow, and digests the data; an offset that is behind changes nothing; every entity of a
container comes out as it went in. -/
theorem entity_extract (hm : Memory malloc) :
    (∀ (buf : Md5.Buffer) (opts : List Opt), (metaBlock opts).length < 65536 →
      (imageData (entityLen + (metaBlock opts).length) opts).length < 2147483648 →
      ∃ e : Entity, entity malloc buf opts = e.header.bytes ++ (e.metaBytes ++ e.data) ∧
        e.metaBytes = metaBlock opts ∧
        e.data = imageData (entityLen + (metaBlock opts).length) opts ∧
        e.header.magic = seamaMagic ∧ e.header.metasize.toNat = e.metaBytes.length ∧
        e.header.imagesize.toNat = e.data.length ∧ e.header.md5 = Md5.md5 e.data) ∧
    (∀ (o : Nat) (n : Long) (os : List Opt), n.val ≤ o →
      imageData o (.b n :: os) = imageData o os) ∧
    ∀ (s : Seal) (es : List Entity) (k : Nat) (hk : k < es.length),
      extract (s.container es) k = (0, some (es.get ⟨k, hk⟩).bytes) := by
  refine ⟨fun buf opts h1 h2 => ?_, fun o n os h => imageData_behind h os, extract_container⟩
  have hlt : (imageData (entityLen + (metaBlock opts).length) opts).length < 4294967296 := by omega
  refine ⟨⟨_, _, h1, hlt⟩, ?_, rfl, rfl, rfl, Entity.metasize_eq _, Entity.imagesize_eq _, rfl⟩
  exact entity_eq hm buf opts ⟨_, _, h1, hlt⟩ rfl rfl h2

def malloc40 (n : Nat) : Bool := n < 1099511627776

theorem memory_malloc40 : Memory malloc40 :=
  ⟨fun n _ h => decide_eq_true (by omega), fun n h => decide_eq_false (by omega)⟩

theorem zeros64_length : (zeros 64).length = 64 := zeros_length 64

def buf0 : Md5.Buffer := ⟨zeros 64, zeros64_length⟩

theorem lang_nul_free : 0 ∉ CStr.ascii ['l', '=', 'e'] := by decide

theorem long48 : -9223372036854775808 ≤ (48 : Int) ∧ (48 : Int) < 9223372036854775808 := by decide

theorem long8 : -9223372036854775808 ≤ (8 : Int) ∧ (8 : Int) < 9223372036854775808 := by decide

/-- a string, a file, an offset ahead and one that is behind, and a file that is not there -/
def opts5 : List Opt :=
  [.f (some [1, 2, 3]), .m ⟨CStr.ascii ['l', '=', 'e'], lang_nul_free⟩, .b ⟨48, long48⟩, .b ⟨8, long8⟩,
    .f none]

theorem data3_lt : [1, 2, (3 : UInt8)].length < 4294967296 := by decide

theorem no_meta_lt : ([] : List UInt8).length < 65536 := by decide

def entity3 : Entity := ⟨[], [1, 2, 3], no_meta_lt, data3_lt⟩

theorem entity_extract_opts5 :
    (∃ e : Entity, entity malloc40 buf0 opts5 = e.header.bytes ++ (e.metaBytes ++ e.data) ∧
      e.metaBytes = [108, 61, 101, 0] ∧ e.data = [1, 2, 3] ++ zeros 13 ∧
      extract (Seal.container ⟨[], no_meta_lt⟩ [entity3, e]) 1 = (0, some e.bytes)) := by
  obtain ⟨h1, -, h3⟩ := entity_extract memory_malloc40
  obtain ⟨e, h, hm, hd, -, -, -, -⟩ := h1 buf0 opts5 (by decide) (by decide)
  exact ⟨e, h, hm, hd, h3 ⟨[], no_meta_lt⟩ [entity3, e] 1 (by show 1 < 2; omega)⟩

end Oseama
