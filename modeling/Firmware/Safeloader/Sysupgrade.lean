import Firmware.Safeloader.Image

/-!
# tplink-safeloader: the sysupgrade image

The partitions of an image at their places in the flash, from the first sysupgrade partition to the
last; what is not written is 0xff.

* `findPartitions`            the loop that looks for the two partitions;
* `copyPartitions`            the loop over the flash partitions between them;
* `generateSysupgradeImage`   `generate_sysupgrade_image`; `none` is an exit with an error, a failed
                              assertion or a write outside the image;
* `Layout`                    a flash table and a list of partitions for it;
* `sysupgradeImage_spec`      the image.
-/

set_option linter.unusedVariables false

namespace Safeloader
open Img Word

/-- `struct device_info`, with the names of the first and the last partition of sysupgrade -/
structure SysupgradeInfo extends DeviceInfo where
  firstSysupgradePartition : CStr
  lastSysupgradePartition : CStr

/-- the first and the last partition with their indices, as far as they are found; from index `i` on -/
def findPartitions (info : SysupgradeInfo) : Nat → List FlashPartition →
    Option (Nat × FlashPartition) × Option (Nat × FlashPartition) →
    Option (Nat × FlashPartition) × Option (Nat × FlashPartition)
  | _, [], found => found
  | i, f :: fs, found =>
    if f.name = info.firstSysupgradePartition then findPartitions info (i + 1) fs (some (i, f), found.2)
    else if f.name = info.lastSysupgradePartition then
      findPartitions info (i + 1) fs (found.1, some (i, f))
    else findPartitions info (i + 1) fs found

/-- the partition of the image with the name of `f` goes to its place -/
def copyPartition (parts : List ImagePartition) (base : UInt32) (f : FlashPartition)
    (image : List UInt8) : Option (List UInt8) :=
  match parts.find? fun p => f.name = p.name with
  | none => some image
  | some p =>
    if p.data.length > f.size.toNat then none
    else if f.base < base then none
    else store image (f.base.toNat - base.toNat) p.data

def copyPartitions (parts : List ImagePartition) (base : UInt32) :
    List FlashPartition → List UInt8 → Option (List UInt8)
  | [], image => some image
  | f :: fs, image => (copyPartition parts base f image).bind (copyPartitions parts base fs)

def generateSysupgradeImage (info : SysupgradeInfo) (imageParts : List ImagePartition) :
    Option (List UInt8) := do
  let (first, last) := findPartitions info 0 info.partitions (none, none)
  let (firstIndex, first) ← first
  let (lastIndex, last) ← last
  if firstIndex < lastIndex then
    let imageLast ← imageParts.find? fun p => p.name = info.lastSysupgradePartition
    let len := (last.base - first.base).toNat + imageLast.data.length
    copyPartitions imageParts first.base
      ((info.partitions.drop firstIndex).take (lastIndex + 1 - firstIndex)) (List.replicate len 0xff)
  else none

/-! ## layouts -/

/-- the partitions between the first and the last one of sysupgrade, both included: the table is
sorted by base, no partition begins before the end of an earlier one, and each partition of the
image fits where it goes -/
structure Layout (info : SysupgradeInfo) (parts : List ImagePartition) where
  before : List FlashPartition
  first : FlashPartition
  inner : List FlashPartition
  last : FlashPartition
  behind : List FlashPartition
  imageLast : ImagePartition
  table : info.partitions = before ++ (first :: (inner ++ [last]) ++ behind)
  sorted : info.partitions.Pairwise fun f g => f.base.toNat + f.size.toNat ≤ g.base.toNat
  first_name : first.name = info.firstSysupgradePartition
  last_name : last.name = info.lastSysupgradePartition
  first_once : ∀ f ∈ inner ++ [last] ++ behind, f.name ≠ info.firstSysupgradePartition
  last_once : ∀ f ∈ behind, f.name ≠ info.lastSysupgradePartition
  distinct : (parts.map ImagePartition.name).Nodup
  imageLast_mem : imageLast ∈ parts
  imageLast_name : imageLast.name = info.lastSysupgradePartition
  fits : ∀ f ∈ info.partitions, ∀ p ∈ parts, p.name = f.name → p.data.length ≤ f.size.toNat

/-! ## the search -/

section
variable {info : SysupgradeInfo}

theorem findPartitions_append : ∀ (a b : List FlashPartition) (i : Nat)
    (found : Option (Nat × FlashPartition) × Option (Nat × FlashPartition)),
    findPartitions info i (a ++ b) found
      = findPartitions info (i + a.length) b (findPartitions info i a found)
  | [], _, _, _ => rfl
  | f :: a, b, i, found => by
    have hi : i + (f :: a).length = i + 1 + a.length := by
      rw [List.length_cons]
      omega
    rw [hi, List.cons_append, findPartitions, findPartitions]
    split
    · exact findPartitions_append a b _ _
    · split <;> exact findPartitions_append a b _ _

theorem findPartitions_fst : ∀ {fs : List FlashPartition} (i : Nat)
    (found : Option (Nat × FlashPartition) × Option (Nat × FlashPartition)),
    (∀ f ∈ fs, f.name ≠ info.firstSysupgradePartition) → (findPartitions info i fs found).1 = found.1
  | [], _, _, _ => rfl
  | f :: fs, i, found, h => by
    have hfs : ∀ g ∈ fs, g.name ≠ info.firstSysupgradePartition :=
      fun g hg => h g (List.mem_cons_of_mem _ hg)
    unfold findPartitions
    rw [if_neg (h f List.mem_cons_self)]
    split <;> exact findPartitions_fst _ _ hfs

theorem findPartitions_snd : ∀ {fs : List FlashPartition} (i : Nat)
    (found : Option (Nat × FlashPartition) × Option (Nat × FlashPartition)),
    (∀ f ∈ fs, f.name ≠ info.lastSysupgradePartition) → (findPartitions info i fs found).2 = found.2
  | [], _, _, _ => rfl
  | f :: fs, i, found, h => by
    have hfs : ∀ g ∈ fs, g.name ≠ info.lastSysupgradePartition :=
      fun g hg => h g (List.mem_cons_of_mem _ hg)
    unfold findPartitions
    rw [if_neg (h f List.mem_cons_self)]
    split <;> exact findPartitions_snd _ _ hfs

end

/-! ## the copies -/

section
variable {parts : List ImagePartition} {base : UInt32}

/-- the partition of the image that `f` names, and its bytes -/
def Covers (parts : List ImagePartition) (base : UInt32) (f : FlashPartition) (k : Nat) : Prop :=
  ∃ p ∈ parts, p.name = f.name ∧ f.base.toNat - base.toNat ≤ k ∧
    k < f.base.toNat - base.toNat + p.data.length

/-- `f` has its data in the image -/
def Placed (parts : List ImagePartition) (base : UInt32) (image : List UInt8) (f : FlashPartition) :
    Prop :=
  ∀ p ∈ parts, p.name = f.name →
    slice image (f.base.toNat - base.toNat) p.data.length = p.data

/-- what the copy to `f` needs -/
structure Room (parts : List ImagePartition) (base : UInt32) (len : Nat) (f : FlashPartition) :
    Prop where
  base_le : base.toNat ≤ f.base.toNat
  fits : ∀ p ∈ parts, p.name = f.name → p.data.length ≤ f.size.toNat
  inside : ∀ p ∈ parts, p.name = f.name → f.base.toNat - base.toNat + p.data.length ≤ len

theorem find_of_mem (hd : (parts.map ImagePartition.name).Nodup) {name : CStr}
    {p : ImagePartition} (hp : p ∈ parts) (hn : p.name = name) :
    parts.find? (fun p => name = p.name) = some p := by
  obtain ⟨as, bs, rfl⟩ := List.append_of_mem hp
  rw [List.map_append, List.map_cons] at hd
  refine List.find?_eq_some_iff_append.mpr ⟨decide_eq_true hn.symm, as, bs, rfl, fun a ha => ?_⟩
  have hne := (List.nodup_append.mp hd).2.2 a.name (List.mem_map_of_mem ha) p.name List.mem_cons_self
  simpa [← hn] using hne.symm

theorem copyPartition_spec (hd : (parts.map ImagePartition.name).Nodup) {f : FlashPartition}
    {image : List UInt8} (h : Room parts base image.length f) :
    ∃ image', copyPartition parts base f image = some image' ∧ image'.length = image.length ∧
      Placed parts base image' f ∧ ∀ k, ¬Covers parts base f k → image'[k]? = image[k]? := by
  unfold copyPartition
  cases hp : parts.find? fun p => f.name = p.name with
  | none =>
    refine ⟨image, rfl, rfl, fun p hmem hn => ?_, fun _ _ => rfl⟩
    rw [find_of_mem hd hmem hn] at hp
    exact nomatch hp
  | some p =>
    have hmem := List.mem_of_find?_eq_some hp
    have hn : p.name = f.name := by
      have := List.find?_some hp
      exact (of_decide_eq_true this).symm
    have hin := h.inside p hmem hn
    have hfit : ¬p.data.length > f.size.toNat := Nat.not_lt.mpr (h.fits p hmem hn)
    have hbase : ¬f.base < base := Nat.not_lt.mpr h.base_le
    have hs : store image (f.base.toNat - base.toNat) p.data
        = some (poke image (f.base.toNat - base.toNat) p.data) := store_eq_some.mpr ⟨hin, rfl⟩
    refine ⟨poke image (f.base.toNat - base.toNat) p.data, ?_, store_length hs, fun q hq hqn => ?_,
      fun k hk => ?_⟩
    · show (if p.data.length > f.size.toNat then none else _) = _
      rw [if_neg hfit, if_neg hbase, hs]
    · obtain rfl : p = q := Option.some.inj (hp.symm.trans (find_of_mem hd hq hqn))
      exact slice_poke_self _ _ _ hin
    · refine poke_getElem? _ _ _ _ hin ?_
      by_contra hc
      exact hk ⟨p, hmem, hn, by omega, by omega⟩

/-- a place is not touched where nothing else is copied -/
theorem Placed.frame {f : FlashPartition} {image image' : List UInt8} (h : Placed parts base image f)
    (hsame : ∀ k, Covers parts base f k → image'[k]? = image[k]?) : Placed parts base image' f := by
  intro p hp hn
  refine Eq.trans (List.ext_getElem? fun i => ?_) (h p hp hn)
  unfold slice
  rw [List.getElem?_take, List.getElem?_take]
  split
  · next hi =>
    rw [List.getElem?_drop, List.getElem?_drop]
    exact hsame _ ⟨p, hp, hn, Nat.le_add_right _ _, Nat.add_lt_add_left hi _⟩
  · rfl

theorem copyPartitions_spec (hd : (parts.map ImagePartition.name).Nodup) :
    ∀ {fs : List FlashPartition} (image : List UInt8), (∀ f ∈ fs, Room parts base image.length f) →
    fs.Pairwise (fun f g => f.base.toNat + f.size.toNat ≤ g.base.toNat) →
    ∃ image', copyPartitions parts base fs image = some image' ∧ image'.length = image.length ∧
      (∀ f ∈ fs, Placed parts base image' f) ∧
      ∀ k, (∀ f ∈ fs, ¬Covers parts base f k) → image'[k]? = image[k]?
  | [], image, _, _ => ⟨image, rfl, rfl, by simp, fun _ _ => rfl⟩
  | f :: fs, image, hroom, hsorted => by
    have hf := hroom f List.mem_cons_self
    obtain ⟨hlow, hsorted⟩ := List.pairwise_cons.mp hsorted
    obtain ⟨image₁, h₁, hlen₁, hplaced₁, hframe₁⟩ := copyPartition_spec hd hf
    obtain ⟨image₂, h₂, hlen₂, hplaced₂, hframe₂⟩ := copyPartitions_spec hd image₁
      (fun g hg => by rw [hlen₁]; exact hroom g (List.mem_cons_of_mem _ hg)) hsorted
    refine ⟨image₂, ?_, hlen₂.trans hlen₁, ?_, fun k hk => ?_⟩
    · show (copyPartition parts base f image).bind _ = _
      rw [h₁, Option.bind_some, h₂]
    · rintro g (_ | ⟨_, hg⟩)
      · -- the later copies begin behind the end of `f`
        refine hplaced₁.frame fun k ⟨p, hp, hn, hle, hlt⟩ => hframe₂ k fun g hg ⟨q, hq, hqn, hgk, _⟩ => ?_
        have := hf.fits p hp hn
        have := hf.base_le
        have := hlow g hg
        omega
      · exact hplaced₂ g hg
    · rw [hframe₂ k fun g hg => hk g (List.mem_cons_of_mem _ hg), hframe₁ k (hk f List.mem_cons_self)]

end

/-! ## the image -/

theorem Layout.find {info : SysupgradeInfo} {parts : List ImagePartition} (l : Layout info parts) :
    findPartitions info 0 info.partitions (none, none)
      = (some (l.before.length, l.first), some (l.before.length + 1 + l.inner.length, l.last)) := by
  have hlast : l.last.name ≠ info.firstSysupgradePartition :=
    l.first_once _ (List.mem_append_left _ (List.mem_append_right _ (List.mem_singleton_self _)))
  refine Prod.ext ?_ ?_
  · rw [l.table, findPartitions_append, Nat.zero_add, List.cons_append, findPartitions,
      if_pos l.first_name]
    exact findPartitions_fst _ _ l.first_once
  · have htable : info.partitions = (l.before ++ l.first :: l.inner) ++ (l.last :: l.behind) := by
      rw [l.table]
      simp
    rw [htable, findPartitions_append, findPartitions, if_neg hlast, if_pos l.last_name,
      findPartitions_snd _ _ l.last_once, List.length_append, List.length_cons,
      show 0 + (l.before.length + (l.inner.length + 1)) = l.before.length + 1 + l.inner.length by omega]

/-- the partitions that are copied -/
def Layout.between {info : SysupgradeInfo} {parts : List ImagePartition} (l : Layout info parts) :
    List FlashPartition := l.first :: (l.inner ++ [l.last])

theorem Layout.mem_table {info : SysupgradeInfo} {parts : List ImagePartition} (l : Layout info parts)
    {f : FlashPartition} (hf : f ∈ l.between) : f ∈ info.partitions := by
  rw [l.table]
  exact List.mem_append_right _ (List.mem_append_left _ hf)

theorem Layout.between_sorted {info : SysupgradeInfo} {parts : List ImagePartition}
    (l : Layout info parts) :
    l.between.Pairwise fun f g => f.base.toNat + f.size.toNat ≤ g.base.toNat := by
  have h := l.sorted
  rw [l.table] at h
  exact (List.pairwise_append.mp (List.pairwise_append.mp h).2.1).1

/-- there is room for every copy -/
theorem Layout.room {info : SysupgradeInfo} {parts : List ImagePartition} (l : Layout info parts)
    {f : FlashPartition} (hf : f ∈ l.between) : Room parts l.first.base
      (l.last.base.toNat - l.first.base.toNat + l.imageLast.data.length) f := by
  have hsorted := l.between_sorted
  have hlow : l.first.base.toNat ≤ f.base.toNat := by
    obtain rfl | hf := List.mem_cons.mp hf
    · exact Nat.le_refl _
    · have := (List.pairwise_cons.mp hsorted).1 f hf
      omega
  have hfits := l.fits f (l.mem_table hf)
  refine ⟨hlow, hfits, fun p hp hn => ?_⟩
  have hend : f = l.last ∨ f.base.toNat + f.size.toNat ≤ l.last.base.toNat := by
    have hsplit : l.between = (l.first :: l.inner) ++ [l.last] := rfl
    rw [hsplit] at hf hsorted
    obtain hf | hf := List.mem_append.mp hf
    · exact Or.inr ((List.pairwise_append.mp hsorted).2.2 f hf _ (List.mem_singleton_self _))
    · exact Or.inl (List.mem_singleton.mp hf)
  obtain rfl | hend := hend
  · -- the length is made for this one
    have hpl : p = l.imageLast := by
      have h₁ := find_of_mem l.distinct hp rfl
      have h₂ := find_of_mem l.distinct l.imageLast_mem rfl
      rw [l.imageLast_name, ← l.last_name, ← hn, h₁] at h₂
      exact Option.some.inj h₂
    rw [hpl]
  · have := hfits p hp hn
    omega

/-- **The sysupgrade image** has each partition at its place, and 0xff everywhere else. -/
theorem sysupgradeImage_spec {info : SysupgradeInfo} {parts : List ImagePartition}
    (l : Layout info parts) : ∃ image, generateSysupgradeImage info parts = some image ∧
      image.length = l.last.base.toNat - l.first.base.toNat + l.imageLast.data.length ∧
      (∀ f ∈ l.between, Placed parts l.first.base image f) ∧
      ∀ k < image.length, (∀ f ∈ l.between, ¬Covers parts l.first.base f k) → image[k]? = some 0xff := by
  have hlast : parts.find? (fun p => p.name = info.lastSysupgradePartition) = some l.imageLast := by
    have h := find_of_mem l.distinct l.imageLast_mem l.imageLast_name
    rwa [show (fun p : ImagePartition => decide (info.lastSysupgradePartition = p.name))
      = fun p => decide (p.name = info.lastSysupgradePartition) by
        funext p
        exact decide_eq_decide.mpr eq_comm] at h
  have hbetween : (info.partitions.drop l.before.length).take
      (l.before.length + 1 + l.inner.length + 1 - l.before.length) = l.between := by
    rw [l.table, List.drop_left]
    refine List.take_left' ?_
    rw [List.length_cons, List.length_append, List.length_singleton]
    omega
  have hle : l.first.base ≤ l.last.base :=
    (l.room (f := l.last) (List.mem_cons_of_mem _ (List.mem_append_right _ (List.mem_singleton_self _)))).base_le
  have hsub : (l.last.base - l.first.base).toNat = l.last.base.toNat - l.first.base.toNat :=
    UInt32.toNat_sub_of_le _ _ hle
  obtain ⟨image, hrun, hlen, hplaced, hframe⟩ := copyPartitions_spec l.distinct
    (List.replicate (l.last.base.toNat - l.first.base.toNat + l.imageLast.data.length) 0xff)
    (fun f hf => by rw [List.length_replicate]; exact l.room hf) l.between_sorted
  rw [List.length_replicate] at hlen
  refine ⟨image, ?_, hlen, hplaced, fun k hk hnot => ?_⟩
  · unfold generateSysupgradeImage
    rw [l.find]
    show (if l.before.length < l.before.length + 1 + l.inner.length then _ else _) = _
    rw [if_pos (by omega), hlast]
    show copyPartitions parts l.first.base _ _ = _
    rw [hbetween, hsub, hrun]
  · rw [hframe k hnot, List.getElem?_replicate, if_pos (by omega)]

theorem kernel_nul_free : 0 ∉ CStr.ascii ['k'] := by decide
theorem gap_nul_free : 0 ∉ CStr.ascii ['g'] := by decide
theorem rootfs_nul_free : 0 ∉ CStr.ascii ['r'] := by decide

def kernel : CStr := ⟨CStr.ascii ['k'], kernel_nul_free⟩
def gap : CStr := ⟨CStr.ascii ['g'], gap_nul_free⟩
def rootfs : CStr := ⟨CStr.ascii ['r'], rootfs_nul_free⟩

/-- a kernel, a partition that no image has, and a root file system -/
def board : SysupgradeInfo where
  vendor := none
  partitions := [⟨kernel, 0x100, 0x200⟩, ⟨gap, 0x300, 0x80⟩, ⟨rootfs, 0x380, 0x100⟩]
  vendor_fits := nofun
  firstSysupgradePartition := kernel
  lastSysupgradePartition := rootfs

def boardLayout : Layout board [⟨rootfs, [3]⟩, ⟨kernel, [1, 2]⟩] where
  before := []
  first := ⟨kernel, 0x100, 0x200⟩
  inner := [⟨gap, 0x300, 0x80⟩]
  last := ⟨rootfs, 0x380, 0x100⟩
  behind := []
  imageLast := ⟨rootfs, [3]⟩
  table := rfl
  sorted := by decide
  first_name := rfl
  last_name := rfl
  first_once := by decide
  last_once := by decide
  distinct := by decide
  imageLast_mem := List.mem_cons_self
  imageLast_name := rfl
  fits := by decide

theorem sysupgradeImage_board : ∃ image,
    generateSysupgradeImage board [⟨rootfs, [3]⟩, ⟨kernel, [1, 2]⟩] = some image ∧
    image.length = 0x281 ∧ slice image 0 2 = [1, 2] ∧ slice image 0x280 1 = [3] := by
  obtain ⟨image, hgen, hlen, hplaced, -⟩ := sysupgradeImage_spec boardLayout
  exact ⟨image, hgen, hlen, hplaced _ List.mem_cons_self ⟨kernel, [1, 2]⟩ (by simp) rfl,
    hplaced ⟨rootfs, 0x380, 0x100⟩ (by simp [Layout.between, boardLayout]) ⟨rootfs, [3]⟩ (by simp) rfl⟩

end Safeloader
