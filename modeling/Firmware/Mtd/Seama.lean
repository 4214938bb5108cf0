import Firmware.Md5.Md5
import Firmware.Mtd.Imagetag

/-!
# mtd: the header fixer of `seama.c`

`mtd_fixseama` sets the size of a Seama entity and the digest of its data.  `erasesize` is the
global variable as it is when the function is called; the digest is a parameter.

* `seamaFixMd5`     `seama_fix_md5`;
* `mtdFixseama`     the whole function;
* `Covers`          the digest of a header is that of the data behind it;
* `fixseama_iff`    when a header that lies in one erase block is put right;
* `fixers_iff`      both fixers.
-/

set_option linter.unusedVariables false

namespace Mtd.Seama
open Img Word CInt

variable {E : Nat}

def seamaMagic : UInt32 := 0x5ea3a417

/-- `sizeof(struct seama_entity_header)` -/
def headerLen : Nat := 28

/-- what `MD5_Init`, `MD5_Update` and `MD5_Final` compute -/
structure Digest where
  digest : List UInt8 → List UInt8
  length : ∀ m, (digest m).length = 16

def load16 (m : List UInt8) (off : Nat) : Option UInt16 := (load m off 2).map (get16 true)

/-! ## the function -/

/-- `seama_fix_md5` for a header at `offset` in the buffer: the new buffer, when it returns 0; the
outer `none` is an access outside the buffer -/
def seamaFixMd5 (md5 : Digest) (d : Dev E) (blk : List UInt8) (offset : Nat)
    (dataOffset dataSize : UInt64) : Option (Option (List UInt8)) :=
  let buf := pread d dataSize.toNat dataOffset.toNat
  if buf.length ≠ dataSize.toNat then some none
  else (load blk (offset + 12) 16).bind fun old =>
    if md5.digest buf = old then some none
    else (store blk (offset + 8) (put32 true (UInt32.ofNat dataSize.toNat))).bind fun blk =>
      (store blk (offset + 12) (md5.digest buf)).map some

/-- how much of the data is hashed -/
def hashSize (d : Dev E) (size : UInt32) (dataOffset dataSize : UInt64) : UInt64 :=
  let dataSize := if dataSize = 0 then sizeT (mtdsize d) - dataOffset else dataSize
  if dataSize > size.toUInt64 then size.toUInt64 else dataSize

/-- the part after `pread`, for a header at `offset` in the buffer -/
def fixBlock (md5 : Digest) (d : Dev E) (blk : List UInt8) (offset : UInt64) (blockOffset : Nat)
    (dataSize : UInt64) : Fixed E :=
  access (load32 true blk (offset.toNat + 0)) fun magic =>
  if magic ≠ seamaMagic then .exit d
  else access (load32 true blk (offset.toNat + 8)) fun size =>
    if size = 0 then .exit d
    else access (load16 blk (offset.toNat + 6)) fun metasize =>
      let dataOffset := offset + 28 + metasize.toUInt64
      access (seamaFixMd5 md5 d blk offset.toNat dataOffset (hashSize d size dataOffset dataSize))
        fun
        | none => .ret d
        | some blk => rewriteBlock d blockOffset blk

def mtdFixseama (md5 : Digest) (erasesize : Nat) (d : Dev E) (offset dataSize : UInt64) : Fixed E :=
  let blockOffset := blockOffset erasesize offset
  withBlock d blockOffset fun blk =>
    fixBlock md5 d blk (offset - blockOffset) blockOffset.toNat dataSize

/-! ## the header -/

/-- a header whose meta data and data are on the device -/
structure Valid (m : List UInt8) (offset : Nat) (metasize : UInt16) (size : UInt32) : Prop where
  magic : load32 true m (offset + 0) = some seamaMagic
  metaLen : load16 m (offset + 6) = some metasize
  len : load32 true m (offset + 8) = some size
  pos : size ≠ 0
  fits : offset + headerLen + metasize.toNat + size.toNat ≤ m.length

/-- the size the digest is to cover -/
def covered (size : UInt32) (dataSize : UInt64) : Nat :=
  if dataSize = 0 then size.toNat else min dataSize.toNat size.toNat

/-- `n` bytes behind the meta data of a header at `o` -/
def data (m : List UInt8) (o : Nat) (metasize : UInt16) (n : Nat) : List UInt8 :=
  slice m (o + headerLen + metasize.toNat) n

/-- a header with the digest of the `n` bytes behind it -/
structure Covers (md5 : Digest) (offset : Nat) (metasize : UInt16) (n : Nat) (m : List UInt8) :
    Prop where
  magic : load32 true m (offset + 0) = some seamaMagic
  metaLen : load16 m (offset + 6) = some metasize
  digest : load m (offset + 12) 16 = some (md5.digest (data m offset metasize n))

theorem covered_le (size : UInt32) (dataSize : UInt64) : covered size dataSize ≤ size.toNat := by
  unfold covered
  split
  · exact Nat.le_refl _
  · exact Nat.min_le_right _ _

/-- the size and the digest are written into the header, which keeps the rest -/
theorem covers_poke {md5 : Digest} {m : List UInt8} {o : Nat} {metasize : UInt16} {n : Nat}
    {w : UInt32} {dg : List UInt8} (hdg : dg.length = 16) (hm : o + headerLen ≤ m.length)
    (hmagic : load32 true m (o + 0) = some seamaMagic) (hmeta : load16 m (o + 6) = some metasize) :
    Covers md5 o metasize n (poke m o (poke (poke (slice m o headerLen) 8 (put32 true w)) 12 dg)) ↔
      dg = md5.digest (data m o metasize n) := by
  have h0 : (slice m o headerLen).length = headerLen := slice_length _ _ _ hm
  have h1 : (poke (slice m o headerLen) 8 (put32 true w)).length = headerLen := by
    rw [poke_length _ _ _ (by rw [put32_length, h0]; decide), h0]
  have h2 : (poke (poke (slice m o headerLen) 8 (put32 true w)) 12 dg).length = headerLen := by
    rw [poke_length _ _ _ (by rw [hdg, h1]; decide), h1]
  have hin : ∀ {k j}, k + j ≤ headerLen →
      load (poke m o (poke (poke (slice m o headerLen) 8 (put32 true w)) 12 dg)) (o + k) j
        = load (poke (poke (slice m o headerLen) 8 (put32 true w)) 12 dg) k j :=
    fun hk => load_poke (by rw [h2]; exact hk) (by rw [h2]; exact hm)
  have hkeep : ∀ {k j}, k + j ≤ 8 →
      load (poke m o (poke (poke (slice m o headerLen) 8 (put32 true w)) 12 dg)) (o + k) j
        = load m (o + k) j := by
    intro k j hk
    rw [hin (by unfold headerLen; omega), load_poke_before (by omega) (by rw [hdg, h1]; decide),
      load_poke_before hk (by rw [put32_length, h0]; decide),
      load_slice (by unfold headerLen; omega) hm]
  have hself : load (poke m o (poke (poke (slice m o headerLen) 8 (put32 true w)) 12 dg)) (o + 12) 16
      = some dg := by
    have := load_poke_self (show 12 + dg.length ≤ (poke (slice m o headerLen) 8 (put32 true w)).length by
      rw [hdg, h1]; decide)
    rw [hdg] at this
    rw [hin (by decide), this]
  have hdata : data (poke m o (poke (poke (slice m o headerLen) 8 (put32 true w)) 12 dg)) o metasize n
      = data m o metasize n := by
    unfold data
    exact slice_poke_after _ _ _ _ _ (by rw [h2]; omega) (by rw [h2]; exact hm)
  constructor
  · intro h
    have := h.digest
    rw [hself, hdata] at this
    exact Option.some.inj this
  · intro h
    refine ⟨?_, ?_, by rw [hself, hdata, h]⟩
    · unfold load32 at hmagic ⊢
      rw [hkeep (by decide)]
      exact hmagic
    · unfold load16 at hmeta ⊢
      rw [hkeep (by decide)]
      exact hmeta

/-! ## the whole function -/

theorem hashSize_eq {d : Dev E} {size : UInt32} {dataOffset dataSize : UInt64}
    (h : dataOffset.toNat + size.toNat ≤ d.mem.length) :
    (hashSize d size dataOffset dataSize).toNat = covered size dataSize := by
  have hsz := sizeT_mtdsize d
  have hs : size.toUInt64.toNat = size.toNat := UInt32.toNat_toUInt64 size
  unfold hashSize covered
  by_cases h0 : dataSize = 0
  · have hsub : (sizeT (mtdsize d) - dataOffset).toNat = (sizeT (mtdsize d)).toNat - dataOffset.toNat :=
      UInt64.toNat_sub_of_le _ _ (by rw [UInt64.le_iff_toNat_le]; omega)
    simp only [if_pos h0]
    by_cases hgt : sizeT (mtdsize d) - dataOffset > size.toUInt64
    · rw [if_pos hgt, hs]
    · rw [if_neg hgt, hsub]
      have := mt UInt64.lt_iff_toNat_lt.mpr hgt
      rw [hsub, hs] at this
      omega
  · simp only [if_neg h0]
    by_cases hgt : dataSize > size.toUInt64
    · have := UInt64.lt_iff_toNat_lt.mp hgt
      rw [if_pos hgt, hs, Nat.min_eq_right (by omega)]
    · have := mt UInt64.lt_iff_toNat_lt.mpr hgt
      rw [if_neg hgt, Nat.min_eq_left (by omega)]

section
variable {md5 : Digest} {d : Dev E} {offset dataSize : UInt64} {metasize : UInt16} {size : UInt32}
  {k : Nat} (hE : E = 2 ^ k) (hk : k < 31) (h : InBlock d offset.toNat headerLen)
include hE hk h

/-- with the right block in the buffer, the data that are hashed decide; they are those behind a
header at the same place in the first block -/
theorem mtdFixseama_inside (hv : Valid d.mem offset.toNat metasize size) {g : Nat}
    (hg : g = E ∨ g = 0 ∧ offset.toNat < E) :
    Fixes d offset.toNat headerLen (Covers md5 offset.toNat metasize (covered size dataSize))
        (mtdFixseama md5 g d offset dataSize) ↔
      if covered size dataSize ≤ maxRw then
        md5.digest (data d.mem (offset.toNat % E) metasize (covered size dataSize))
          = md5.digest (data d.mem offset.toNat metasize (covered size dataSize))
      else Covers md5 offset.toNat metasize (covered size dataSize) d.mem := by
  obtain ⟨hb, hr⟩ := h.inner hE hk rfl hg
  have hfit := hv.fits
  have ht := d.total
  have hmod : offset.toNat % E ≤ offset.toNat := Nat.mod_le _ _
  have hcov := covered_le size dataSize
  have hmeta := metasize.toNat_lt
  rw [← d.size] at ht
  unfold headerLen at hfit
  have hfrom : (offset - blockOffset g offset + 28 + metasize.toUInt64).toNat
      = offset.toNat % E + headerLen + metasize.toNat := by
    rw [UInt64.toNat_add, UInt64.toNat_add, hr, UInt16.toNat_toUInt64,
      show UInt64.toNat 28 = 28 from rfl]
    unfold headerLen
    omega
  have hsize := @hashSize_eq E d size (offset - blockOffset g offset + 28 + metasize.toUInt64)
    dataSize (by rw [hfrom]; unfold headerLen; omega)
  have hmagic := hv.magic
  have hlen := hv.len
  have hml := hv.metaLen
  unfold load32 at hmagic hlen
  unfold load16 at hml
  rw [← h.load (by decide)] at hmagic hlen hml
  unfold mtdFixseama
  dsimp only
  rw [withBlock_eq hE hk hb h.le]
  unfold fixBlock load32 load16
  rw [hr, hmagic, access_some, if_neg (not_not.mpr rfl), hlen, access_some, if_neg hv.pos, hml,
    access_some, hb]
  unfold seamaFixMd5
  dsimp only
  rw [hfrom, hsize]
  by_cases hrw : covered size dataSize ≤ maxRw
  · have hdata : pread d (covered size dataSize) (offset.toNat % E + headerLen + metasize.toNat)
        = data d.mem (offset.toNat % E) metasize (covered size dataSize) := pread_of_le d hrw _
    have hdl : (data d.mem (offset.toNat % E) metasize (covered size dataSize)).length
        = covered size dataSize := slice_length _ _ _ (by unfold headerLen; omega)
    rw [if_pos hrw, hdata, if_neg (not_not.mpr hdl)]
    generalize data d.mem (offset.toNat % E) metasize (covered size dataSize) = bytes
    have hdg := md5.length bytes
    obtain ⟨old, hold⟩ : ∃ old, load d.mem (offset.toNat + 12) 16 = some old :=
      ⟨_, load_eq_some.mpr ⟨by have := h.size; unfold headerLen at this; omega, rfl⟩⟩
    rw [h.load (by decide), hold, Option.bind_some]
    by_cases hsame : md5.digest bytes = old
    · rw [if_pos hsame, access_some, fixes_ret]
      constructor
      · intro hc
        rw [hsame]
        exact Option.some.inj (hold.symm.trans hc.digest)
      · intro hc
        exact ⟨hv.magic, hv.metaLen, by rw [hold, ← hsame, hc]⟩
    · have hbuf : offset.toNat % E + headerLen ≤ (slice d.mem (offset.toNat / E * E) E).length := by
        rw [slice_length _ _ _ h.le]
        exact h.header
      obtain ⟨e₁, h₁⟩ := store_patch hbuf (slice_length d.mem offset.toNat headerLen h.size)
        (e := put32 true (UInt32.ofNat (covered size dataSize))) (k := 8)
        (by rw [put32_length]; decide)
      obtain ⟨e₂, h₂⟩ := store_patch hbuf h₁ (e := md5.digest bytes) (k := 12) (by rw [hdg]; decide)
      rw [h.buffer] at e₁
      rw [if_neg hsame, e₁, Option.bind_some, e₂, Option.map_some, access_some, h.fixes h₂]
      exact covers_poke hdg h.size hv.magic hv.metaLen
  · have hshort : (pread d (covered size dataSize)
        (offset.toNat % E + headerLen + metasize.toNat)).length ≠ covered size dataSize :=
      fun hl => hrw (pread_eq hl).2
    rw [if_neg hrw, if_pos hshort, access_some]
    exact fixes_ret

/-- **The header is put right** in the first block, when `erasesize` was not set yet; else what is
hashed are the data behind a header at the same place of the first block. -/
theorem fixseama_iff (hv : Valid d.mem offset.toNat metasize size) {g : Nat} (hg : g = 0 ∨ g = E) :
    Fixes d offset.toNat headerLen (Covers md5 offset.toNat metasize (covered size dataSize))
        (mtdFixseama md5 g d offset dataSize) ↔
      (g = 0 → offset.toNat < E) ∧
      if covered size dataSize ≤ maxRw then
        md5.digest (data d.mem (offset.toNat % E) metasize (covered size dataSize))
          = md5.digest (data d.mem offset.toNat metasize (covered size dataSize))
      else Covers md5 offset.toNat metasize (covered size dataSize) d.mem := by
  have hpos := d.erasesize
  rcases hg with rfl | rfl
  · by_cases hlt : offset.toNat < E
    · rw [mtdFixseama_inside hE hk h hv (.inr ⟨rfl, hlt⟩), and_iff_right fun _ => hlt]
    · obtain ⟨hw, ho⟩ := withBlock_zero hE hk h fun blk =>
        fixBlock md5 d blk (offset - blockOffset 0 offset) (blockOffset 0 offset).toNat dataSize
      have hnone : load32 true (slice d.mem 0 E) (offset.toNat + 0) = none := by
        have hl := slice_length d.mem 0 E (by have := h.le; omega)
        unfold load32 load
        rw [if_neg (by omega)]
        rfl
      unfold mtdFixseama
      dsimp only
      rw [hw, ho]
      unfold fixBlock
      rw [hnone]
      exact ⟨fun hf => absurd hf not_fixes_fault, fun hc => absurd (hc.1 rfl) hlt⟩
  · rw [mtdFixseama_inside hE hk h hv (.inl rfl),
      and_iff_right fun h0 => absurd h0 (Nat.ne_of_gt hpos)]

end

/-- the bytes that the checksum of the tag covers; a Seama header may stand there as well -/
def tagBytes : List UInt8 :=
  put32 true seamaMagic ++ (zeros 4 ++ (put32 true 1 ++ (zeros 94 ++ (49 :: zeros 129))))

def tagBlock : List UInt8 :=
  tagBytes ++ (put32 false (Mtd.crc32 Imagetag.crcStart tagBytes) ++ zeros 16)

theorem tagBytes_length : tagBytes.length = 236 := by decide +kernel

theorem tagBlock_length : tagBlock.length = 256 := by
  unfold tagBlock
  rw [List.length_append, List.length_append, tagBytes_length, put32_length, zeros_length]

theorem tagBlock_pos : 0 < 256 := by decide

/-- two erase blocks with the same header -/
def tagDev : Dev 256 where
  chip := ⟨2, false, fun _ => false, fun _ => false, fun _ => false⟩
  erasesize := tagBlock_pos
  total := by decide
  mem := tagBlock ++ tagBlock
  size := by
    rw [List.length_append, tagBlock_length]
    rfl
  pos := 0
  log := []

def md5 : Digest := ⟨Md5.md5, Md5.md5_length⟩

section
variable {o : Nat} (ho : o = 0 ∨ o = 256)
include ho

theorem tagDev_load {n j : Nat} (h : n + j ≤ 256) :
    load tagDev.mem (o + n) j = load tagBlock n j := by
  have hself : load tagBlock n j = some (slice tagBlock n j) :=
    load_eq_some.mpr ⟨by rw [tagBlock_length]; exact h, rfl⟩
  rcases ho with rfl | rfl
  · rw [Nat.zero_add, hself]
    exact load_append_left hself
  · rw [Nat.add_comm]
    exact load_skip tagBlock_length

theorem tagDev_inBlock {len : Nat} (hpos : 0 < len) (h : len ≤ 256) : InBlock tagDev o len where
  header := by rcases ho with rfl | rfl <;> omega
  size := by
    have hl : tagDev.mem.length = 512 := tagDev.size
    rcases ho with rfl | rfl <;> omega
  pos := hpos
  erase := rfl
  write := rfl

theorem tagDev_tag : Imagetag.Valid false tagDev.mem o where
  cfe := by
    have hf : load tagBytes Imagetag.cfeLength Imagetag.imageLen = some (zeros 10) := by decide +kernel
    unfold Imagetag.lengthField
    rw [tagDev_load ho (by decide), tagBlock, load_append_left hf]
    decide
  crc := by
    have h0 : load tagBlock 0 Imagetag.headerCrc = some tagBytes :=
      load_split (List.nil_append _).symm rfl tagBytes_length
    rw [← tagDev_load ho (by decide), Nat.add_zero] at h0
    unfold Imagetag.Checked load32
    rw [tagDev_load ho (by decide), ← (load_eq_some.mp h0).2]
    exact load32_split (a := tagBytes) rfl tagBytes_length

theorem tagDev_seama : Valid tagDev.mem o 0 1 where
  magic := by
    have hf : load tagBytes 0 4 = some (put32 true seamaMagic) := by decide +kernel
    unfold load32
    rw [tagDev_load ho (by decide), tagBlock, load_append_left hf]
    decide
  metaLen := by
    have hf : load tagBytes 6 2 = some (zeros 2) := by decide +kernel
    unfold load16
    rw [tagDev_load ho (by decide), tagBlock, load_append_left hf]
    decide
  len := by
    have hf : load tagBytes 8 4 = some (put32 true 1) := by decide +kernel
    unfold load32
    rw [tagDev_load ho (by decide), tagBlock, load_append_left hf]
    decide
  pos := by decide
  fits := by
    have hl : tagDev.mem.length = 512 := tagDev.size
    have h0 : (0 : UInt16).toNat = 0 := rfl
    have h1 : (1 : UInt32).toNat = 1 := rfl
    unfold headerLen
    rcases ho with rfl | rfl <;> omega

end

end Mtd.Seama
