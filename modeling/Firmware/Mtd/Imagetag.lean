import Firmware.Lib.Scanf
import Firmware.Mtd.Jffs2
import Firmware.Mtd.Rewrite

/-!
# mtd: the header fixer of `imagetag.c`

`mtd_fixtrx` of `imagetag.c` sets the root length of a Broadcom image tag to 0 and renews its
checksums.  `be` is the byte order of the host, and `erasesize` is the global variable as it is when
the function is called: `mtd_check_open` sets it after the function has used it.

* `fixTag`         the changes of the tag in the buffer;
* `mtdFixtrx`      the whole function (`data_size` only gives a message);
* `Checked`        the tag has the right checksum;
* `fixTag_checked` it has it after the changes;
* `fixtrx_iff`     when a tag that lies in one erase block is put right.
-/

set_option linter.unusedVariables false

namespace Mtd.Imagetag
open Img Word CInt CStr

variable {E : Nat}

/-! ## `struct bcm_tag` -/

def imageLen : Nat := 10

def totalLength : Nat := 62
def cfeLength : Nat := 84
def rootLength : Nat := 106
def kernelLength : Nat := 128
def fskernelCrc : Nat := 196
def imageCrc : Nat := 216
def rootfsCrc : Nat := 220
def kernelCrc : Nat := 224
def headerCrc : Nat := 236

/-- `sizeof(struct bcm_tag)` -/
def tagLen : Nat := 256

def crcStart : UInt32 := 0xffffffff

/-! ## the function -/

/-- `strntoul` with base 10: the `uint32_t` of an `unsigned long` of 64 bits -/
def strntoul (str : List UInt8) : UInt32 :=
  let (neg, l) := Scanf.sign (Scanf.blank (str.takeWhile (· ≠ 0)))
  let n := digits 10 0 l
  if neg then 0 - UInt32.ofNat n else UInt32.ofNat n

/-- a field with a length -/
def lengthField (buf : List UInt8) (off : Nat) : Option UInt32 :=
  (load buf off imageLen).map strntoul

/-- `strncpy` from one such field to another -/
def strncpy (field : List UInt8) : List UInt8 :=
  let s := field.takeWhile (· ≠ 0)
  s ++ zeros (imageLen - s.length)

/-- `compute_crc32` for less than 1024 bytes of the device -/
def computeCrc32 (d : Dev E) (start len : Nat) : UInt32 := Mtd.crc32 crcStart (pread d len start)

def fixTag (be : Bool) (buf : List UInt8) (offset : Nat) : Option (List UInt8) :=
  (store buf (offset + rootLength) [48, 0]).bind fun buf =>
  (load buf (offset + kernelLength) imageLen).bind fun kernel =>
  (store buf (offset + totalLength) (strncpy kernel)).bind fun buf =>
  (load buf (offset + kernelCrc) 4).bind fun crc =>
  (store buf (offset + imageCrc) crc).bind fun buf =>
  (load buf (offset + kernelCrc) 4).bind fun crc =>
  (store buf (offset + fskernelCrc) crc).bind fun buf =>
  (store buf (offset + rootfsCrc) (put32 be crcStart)).bind fun buf =>
  (load buf (offset + 0) headerCrc).bind fun tag =>
  store buf (offset + headerCrc) (put32 be (Mtd.crc32 crcStart tag))

/-- the part after `pread`, for a tag at `offset` in the buffer -/
def fixBlock (be : Bool) (d : Dev E) (buf : List UInt8) (offset blockOffset : Nat) : Fixed E :=
  access (lengthField buf (offset + cfeLength)) fun cfelen =>
  if cfelen ≠ 0 then .exit d
  else access (load32 be buf (offset + headerCrc)) fun crc =>
    if computeCrc32 d offset headerCrc ≠ crc then .exit d
    else access (lengthField buf (offset + rootLength)) fun rootfslen =>
      if rootfslen = 0 then .ret d
      else access (fixTag be buf offset) fun buf => rewriteBlock d blockOffset buf

def mtdFixtrx (be : Bool) (erasesize : Nat) (d : Dev E) (offset : UInt64) : Fixed E :=
  let blockOffset := blockOffset erasesize offset
  withBlock d blockOffset fun buf =>
    fixBlock be d buf (offset - blockOffset).toNat blockOffset.toNat

/-! ## the tag -/

/-- the checksum in the tag at `offset` is the one of its first 236 bytes -/
def Checked (be : Bool) (offset : Nat) (m : List UInt8) : Prop :=
  load32 be m (offset + headerCrc) = some (Mtd.crc32 crcStart (slice m offset headerCrc))

/-- a tag the program takes: the length of the boot loader is 0, and the checksum is right -/
structure Valid (be : Bool) (m : List UInt8) (offset : Nat) : Prop where
  cfe : lengthField m (offset + cfeLength) = some 0
  crc : Checked be offset m

theorem strncpy_length {field : List UInt8} (h : field.length = imageLen) :
    (strncpy field).length = imageLen := by
  have hs : (field.takeWhile (· ≠ 0)).length ≤ field.length :=
    (List.takeWhile_sublist _).length_le
  unfold strncpy
  simp only [List.length_append, zeros_length]
  omega

/-- **The changes** are made in the tag, and its checksum is right then. -/
theorem fixTag_checked {be : Bool} {buf t : List UInt8} {r : Nat} (hb : r + tagLen ≤ buf.length)
    (ht : t.length = tagLen) : ∃ t', fixTag be (poke buf r t) r = some (poke buf r t') ∧
      t'.length = tagLen ∧ Checked be 0 t' := by
  obtain ⟨e₁, h₁⟩ := store_patch hb ht (e := [48, 0]) (k := rootLength) (by decide)
  generalize poke t rootLength [48, 0] = t₁ at e₁ h₁
  obtain ⟨e₂, h₂⟩ := load_patch hb h₁ (k := kernelLength) (j := imageLen) (by decide)
  generalize slice t₁ kernelLength imageLen = kernel at e₂ h₂
  have hn := strncpy_length h₂
  obtain ⟨e₃, h₃⟩ := store_patch hb h₁ (e := strncpy kernel) (k := totalLength) (by rw [hn]; decide)
  generalize poke t₁ totalLength (strncpy kernel) = t₃ at e₃ h₃
  obtain ⟨e₄, h₄⟩ := load_patch hb h₃ (k := kernelCrc) (j := 4) (by decide)
  generalize slice t₃ kernelCrc 4 = crc at e₄ h₄
  obtain ⟨e₅, h₅⟩ := store_patch hb h₃ (e := crc) (k := imageCrc) (by rw [h₄]; decide)
  generalize poke t₃ imageCrc crc = t₅ at e₅ h₅
  obtain ⟨e₆, h₆⟩ := load_patch hb h₅ (k := kernelCrc) (j := 4) (by decide)
  generalize slice t₅ kernelCrc 4 = crc' at e₆ h₆
  obtain ⟨e₇, h₇⟩ := store_patch hb h₅ (e := crc') (k := fskernelCrc) (by rw [h₆]; decide)
  generalize poke t₅ fskernelCrc crc' = t₇ at e₇ h₇
  obtain ⟨e₈, h₈⟩ := store_patch hb h₇ (e := put32 be crcStart) (k := rootfsCrc)
    (by rw [put32_length]; decide)
  generalize poke t₇ rootfsCrc (put32 be crcStart) = t₈ at e₈ h₈
  obtain ⟨e₉, h₉⟩ := load_patch hb h₈ (k := 0) (j := headerCrc) (by decide)
  -- the last write is behind the bytes that the checksum covers
  obtain ⟨e, h⟩ := store_patch hb h₈ (e := put32 be (Mtd.crc32 crcStart (slice t₈ 0 headerCrc)))
    (k := headerCrc) (by rw [put32_length]; decide)
  refine ⟨_, ?_, h, ?_⟩
  · unfold fixTag
    rw [e₁, Option.bind_some, e₂, Option.bind_some, e₃, Option.bind_some, e₄, Option.bind_some, e₅,
      Option.bind_some, e₆, Option.bind_some, e₇, Option.bind_some, e₈, Option.bind_some, e₉,
      Option.bind_some, e]
  · unfold Checked
    rw [slice_poke_before _ _ _ _ _ (by decide) (by rw [h₈]; decide), Nat.zero_add]
    exact load32_poke (by rw [h₈]; decide)

/-! ## the whole function -/

/-- the checksum in the device is the one of the tag by itself -/
theorem checked_poke {be : Bool} {m t : List UInt8} {o : Nat} (ht : t.length = tagLen)
    (hm : o + tagLen ≤ m.length) : Checked be o (poke m o t) ↔ Checked be 0 t := by
  have hs : slice (poke m o t) o headerCrc = slice t 0 headerCrc := by
    have := slice_slice (poke m o t) (b := o) (n := t.length) (k := 0) (j := headerCrc)
      (by rw [ht]; decide)
    rw [slice_poke_self m o t (by rw [ht]; exact hm), Nat.add_zero] at this
    exact this.symm
  unfold Checked load32
  rw [load_poke (by rw [ht]; decide) (by rw [ht]; exact hm), hs, Nat.zero_add]

section
variable {be : Bool} {d : Dev E} {offset : UInt64} {k : Nat} (hE : E = 2 ^ k) (hk : k < 31)
  (h : InBlock d offset.toNat tagLen)
include hE hk h

/-- with the right block in the buffer, the bytes that are compared with the checksum decide; they
are taken from the first block -/
theorem mtdFixtrx_inside (hv : Valid be d.mem offset.toNat) {g : Nat}
    (hg : g = E ∨ g = 0 ∧ offset.toNat < E) :
    Fixes d offset.toNat tagLen (Checked be offset.toNat) (mtdFixtrx be g d offset) ↔
      Mtd.crc32 crcStart (slice d.mem (offset.toNat % E) headerCrc)
        = Mtd.crc32 crcStart (slice d.mem offset.toNat headerCrc) := by
  obtain ⟨hb, hr⟩ := h.inner hE hk rfl hg
  have hfield : ∀ {f}, f + imageLen ≤ tagLen →
      lengthField (slice d.mem (offset.toNat / E * E) E) (offset.toNat % E + f)
        = lengthField d.mem (offset.toNat + f) := by
    intro f hf
    unfold lengthField
    rw [h.load hf]
  have hcrc : load32 be (slice d.mem (offset.toNat / E * E) E) (offset.toNat % E + headerCrc)
      = some (Mtd.crc32 crcStart (slice d.mem offset.toNat headerCrc)) := by
    unfold load32
    rw [h.load (by decide)]
    exact hv.crc
  obtain ⟨root, hroot⟩ : ∃ root, lengthField d.mem (offset.toNat + rootLength) = some root := by
    have hs := h.size
    refine ⟨_, congrArg _ (load_eq_some.mpr ⟨Nat.le_trans ?_ hs, rfl⟩)⟩
    unfold rootLength imageLen tagLen
    omega
  have hcomp : computeCrc32 d (offset.toNat % E) headerCrc
      = Mtd.crc32 crcStart (slice d.mem (offset.toNat % E) headerCrc) := by
    unfold computeCrc32
    rw [pread_of_le d (by decide)]
  unfold mtdFixtrx
  dsimp only
  rw [withBlock_eq hE hk hb h.le, hr, hb]
  unfold fixBlock
  rw [hfield (by decide), hv.cfe, access_some, if_neg (not_not.mpr rfl), hcrc, access_some, hcomp,
    hfield (by decide), hroot, access_some]
  by_cases hc : Mtd.crc32 crcStart (slice d.mem (offset.toNat % E) headerCrc)
      = Mtd.crc32 crcStart (slice d.mem offset.toNat headerCrc)
  · rw [if_neg (not_not.mpr hc), iff_true_right hc]
    by_cases h0 : root = 0
    · rw [if_pos h0]
      exact Fixes.refl hv.crc
    · have hlen : (slice d.mem offset.toNat tagLen).length = tagLen := slice_length _ _ _ h.size
      have hbuf : offset.toNat % E + tagLen ≤ (slice d.mem (offset.toNat / E * E) E).length := by
        rw [slice_length _ _ _ h.le]
        exact h.header
      obtain ⟨t', ht', hl', hchk⟩ := @fixTag_checked be _ _ _ hbuf hlen
      rw [h.buffer] at ht'
      rw [if_neg h0, ht', access_some, h.fixes hl']
      exact (checked_poke hl' h.size).mpr hchk
  · rw [if_pos hc]
    exact ⟨fun hf => absurd hf not_fixes_exit, fun h => absurd h hc⟩

/-- **The tag is put right** when the first block holds the same bytes at its place in the block, or
when it is in the first block and `erasesize` was not set yet. -/
theorem fixtrx_iff (hv : Valid be d.mem offset.toNat) {g : Nat} (hg : g = 0 ∨ g = E) :
    Fixes d offset.toNat tagLen (Checked be offset.toNat) (mtdFixtrx be g d offset) ↔
      if g = 0 then offset.toNat < E
      else Mtd.crc32 crcStart (slice d.mem (offset.toNat % E) headerCrc)
        = Mtd.crc32 crcStart (slice d.mem offset.toNat headerCrc) := by
  have hpos := d.erasesize
  rcases hg with rfl | rfl
  · rw [if_pos rfl]
    by_cases hlt : offset.toNat < E
    · rw [mtdFixtrx_inside hE hk h hv (.inr ⟨rfl, hlt⟩), Nat.mod_eq_of_lt hlt]
      exact iff_of_true rfl hlt
    · obtain ⟨hw, ho⟩ := withBlock_zero hE hk h fun buf =>
        fixBlock be d buf (offset - blockOffset 0 offset).toNat (blockOffset 0 offset).toNat
      have hnone : lengthField (slice d.mem 0 E) (offset.toNat + cfeLength) = none := by
        have hl := slice_length d.mem 0 E (by have := h.le; omega)
        unfold lengthField load
        rw [if_neg (by unfold cfeLength imageLen; omega)]
        rfl
      unfold mtdFixtrx
      dsimp only
      rw [hw, ho]
      unfold fixBlock
      rw [hnone]
      exact ⟨fun hf => absurd hf not_fixes_fault, fun h => absurd h hlt⟩
  · rw [if_neg (Nat.ne_of_gt hpos)]
    exact mtdFixtrx_inside hE hk h hv (.inl rfl)

end

end Mtd.Imagetag
