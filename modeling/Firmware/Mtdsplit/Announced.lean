import Firmware.Mtdsplit.Blocks

/-!
# mtdsplit: Seama and TP-Link

Both splitters read one header at the start of the device, add up the length it announces, and
look for the root file system there, then from a fixed offset on.

* `parseSeama`, `parseTplink`   the splitters;
* `seamaLen`, `tplinkLen`       the announced length, as a number;
* `AnnouncedGood`               the partitions fit the announced length;
* `announced_good_iff`          exactly when they do.

The length is added up in a `size_t`.
-/

set_option linter.unusedVariables false

namespace Mtdsplit
open Img Word Machine

/-! ## the splitters -/

/-- both splitters look for the root file system behind the announced length, then from
512 KiB on -/
def minRootfsOffs : Nat := 0x80000

def rootfsAfter (a : Arch) (mtd : Mtd) (size fuel : Nat) : Option (Except Int (Nat × PartType)) :=
  match checkRootfsMagic a mtd size with
  | .ok t => some (.ok (size, t))
  | .error _ => findRootfsFrom a mtd minRootfsOffs (a.size mtd.size) fuel

/-- the kernel from `offset` to `rootfsOffset`, and the rest -/
def partsAt (mtd : Mtd) (offset rootfsOffset : Nat) (name : PartName) : Parts :=
  ⟨⟨.kernel, offset, sub64 rootfsOffset offset⟩,
    ⟨name, rootfsOffset, sub64 mtd.size rootfsOffset⟩, 0⟩

def partsAfter (mtd : Mtd) (offset : Nat) (name : PartType → PartName) :
    Except Int (Nat × PartType) → Except Int Parts
  | .error e => .error e
  | .ok (rootfsOffset, t) => .ok (partsAt mtd offset rootfsOffset (name t))

def be16 (buf : List UInt8) (off : Nat) : Nat :=
  256 * (buf.getD off 0).toNat + (buf.getD (off + 1) 0).toNat

def seamaMagic : Nat := 0x5EA3A417
def seamaHeaderLen : Nat := 28

def seamaMeta (hdr : List UInt8) : Nat := be16 hdr 6

/-- the length of the entity: header, image and meta data -/
def seamaLen (hdr : List UInt8) : Nat := seamaHeaderLen + be32 hdr 8 + seamaMeta hdr

/-- `.ok` is the return value 2 with the partitions -/
def parseSeama (a : Arch) (mtd : Mtd) (fuel : Nat) : Option (Except Int Parts) :=
  match mtd.readAll 0 seamaHeaderLen with
  | .error e => some (.error e)
  | .ok hdr =>
    if be32 hdr 0 ≠ seamaMagic then some (.error einval)
    else
      let kernelEntSize := a.size (seamaLen hdr)
      if kernelEntSize > mtd.size then some (.error einval)
      else
        (rootfsAfter a mtd kernelEntSize fuel).map
          (partsAfter mtd (seamaHeaderLen + seamaMeta hdr) rootfsName)

def tplinkHeaderLen : Nat := 512

/-- where `kernel_ofs` lies in a header of this version; `kernel_len` comes next -/
def tplinkKernelOfs (version : Nat) : Option Nat :=
  if version = 1 then some 128
  else if version = 2 ∨ version = 3 then some 116
  else none

/-- header and kernel -/
def tplinkLen (hdr : List UInt8) (ofs : Nat) : Nat := tplinkHeaderLen + be32 hdr (ofs + 4)

def parseTplink (a : Arch) (mtd : Mtd) (fuel : Nat) : Option (Except Int Parts) :=
  match mtd.readAll 0 tplinkHeaderLen with
  | .error e => some (.error e)
  | .ok hdr =>
    match tplinkKernelOfs (le32 hdr 0) with
    | none => some (.error einval)
    | some ofs =>
      if be32 hdr ofs ≠ tplinkHeaderLen then some (.error einval)
      else
        let kernelSize := a.size (tplinkLen hdr ofs)
        if kernelSize > mtd.size then some (.error einval)
        else (rootfsAfter a mtd kernelSize fuel).map (partsAfter mtd 0 fun _ => .rootfs)

/-! ## the announced length -/

/-- the length is that of something on the device, the root file system starts there or is the
first one from 512 KiB on, and the partitions are not empty, adjacent and inside -/
def AnnouncedGood (a : Arch) (mtd : Mtd) (len : Nat) (p : Parts) : Prop :=
  len ≤ mtd.size ∧
  ((∃ t, HasRootfs a mtd len t) → p.rootfs.offset = len) ∧
  ((∀ t, ¬ HasRootfs a mtd len t) →
    ∃ t, First a mtd minRootfsOffs mtd.size p.rootfs.offset t) ∧
  p.kernel.stop = p.rootfs.offset ∧ p.Inside mtd

/-- the length wraps only where nothing comes of it, the search finds its file system before
its offset wraps, and a file system right behind the kernel leaves a kernel -/
def AnnouncedCond (a : Arch) (mtd : Mtd) (len offset : Nat) : Prop :=
  (a.M ≤ len → len ≤ mtd.size ∧ (∀ t, ¬ HasRootfs a mtd len t) ∧
    ∀ t, HasRootfs a mtd (a.size len) t → First a mtd minRootfsOffs mtd.size (a.size len) t) ∧
  ((∀ t, ¬ HasRootfs a mtd (a.size len) t) → ¬ NoRootfs a mtd minRootfsOffs (a.size mtd.size)) ∧
  (len < a.M → ∀ t, HasRootfs a mtd len t → offset < len)

variable {a : Arch} {mtd : Mtd}

/-- where the root file system of the partitions comes from -/
theorem rootfsAfter_ok {size fuel r : Nat} {t : PartType}
    (h : rootfsAfter a mtd size fuel = some (.ok (r, t))) :
    (HasRootfs a mtd size t ∧ r = size) ∨ ((∀ t, ¬ HasRootfs a mtd size t) ∧
      findRootfsFrom a mtd minRootfsOffs (a.size mtd.size) fuel = some (.ok (r, t))) := by
  unfold rootfsAfter at h
  cases hc : checkRootfsMagic a mtd size with
  | ok t' =>
    rw [hc] at h
    cases h
    exact .inl ⟨checkRootfsMagic_ok.mp hc, rfl⟩
  | error e =>
    rw [hc] at h
    refine .inr ⟨fun t' ht => ?_, h⟩
    rw [checkRootfsMagic_ok.mpr ht] at hc
    cases hc

theorem minRootfsOffs_exact (mtd : Mtd) : Exact mtd minRootfsOffs := .inl (by decide)

/-- the search agrees with the device if it finds something before its offset wraps -/
theorem search_first {fuel r : Nat} {t : PartType}
    (h : findRootfsFrom a mtd minRootfsOffs (a.size mtd.size) fuel = some (.ok (r, t)))
    (hno : ¬ NoRootfs a mtd minRootfsOffs (a.size mtd.size)) :
    First a mtd minRootfsOffs mtd.size r t := by
  obtain ⟨r', t', hf⟩ := exists_first hno
  obtain ⟨⟨r'', o⟩, hr, hres⟩ := findRootfsFrom_ends h
  have hends := hf.ends (Nat.le_of_lt (a.size_lt _)) (minRootfsOffs_exact mtd)
  obtain ⟨rfl, rfl⟩ := Prod.mk.inj (hr.unique hends)
  cases hres
  obtain ⟨⟨hlt, hc⟩, ht, hmin⟩ := hf
  have hle : a.size mtd.size ≤ mtd.size := Nat.mod_le _ _
  exact ⟨⟨by omega, hc⟩, ht, fun r' t' hlt' hc' => hmin r' t' hlt' ⟨by omega, hc'.2⟩⟩

/-- and conversely -/
theorem first_search {r : Nat} {t : PartType} (h : First a mtd minRootfsOffs mtd.size r t)
    (hr : r < a.size mtd.size) : ¬ NoRootfs a mtd minRootfsOffs (a.size mtd.size) :=
  fun hno => hno r t ⟨hr, h.1.2⟩ h.2.1

/-! ## when the partitions are good -/

/-- the partitions lie right if the root file system starts behind the kernel's offset -/
theorem partsAt_inside (offset : Nat) (name : PartName) {r : Nat} (hr : r < mtd.size) :
    ((partsAt mtd offset r name).kernel.stop = r ∧ (partsAt mtd offset r name).Inside mtd) ↔
      offset < r := by
  have hs := mtd.size_lt
  constructor
  · rintro ⟨hstop, ⟨hpos, -⟩, -⟩
    have hpos' : 0 < sub64 r offset := hpos
    have hstop' : offset + sub64 r offset = r := hstop
    omega
  · intro h
    have e1 : sub64 r offset = r - offset := sub64_of_le (by omega) (by omega)
    have e2 : sub64 mtd.size r = mtd.size - r := sub64_of_le (by omega) hs
    unfold partsAt
    rw [e1, e2]
    have hk : offset + (r - offset) = r := by omega
    have hf : r + (mtd.size - r) = mtd.size := by omega
    exact ⟨hk, ⟨Nat.sub_pos_of_lt h, by show offset + (r - offset) ≤ _; omega⟩,
      ⟨Nat.sub_pos_of_lt hr, Nat.le_of_eq hf⟩, .inl (Nat.le_of_eq hk)⟩

/-- the root file system is right behind the announced length -/
theorem announced_direct {len offset : Nat} {name : PartName} {t : PartType}
    (hsz : a.size len ≤ mtd.size) (hoff : offset < minRootfsOffs)
    (ht : HasRootfs a mtd (a.size len) t) :
    AnnouncedGood a mtd len (partsAt mtd offset (a.size len) name) ↔
      AnnouncedCond a mtd len offset := by
  unfold AnnouncedGood AnnouncedCond
  have hin := partsAt_inside offset name ht.lt
  have hM := a.size_lt len
  constructor
  · rintro ⟨hlen, hat, hfirst, hparts⟩
    have hlt := hin.mp hparts
    refine ⟨fun hwrap => ?_, fun hno => absurd ht (hno t), fun hwrap t' ht' => ?_⟩
    · have hno : ∀ t, ¬ HasRootfs a mtd len t := fun t' ht' => by
        have : a.size len = len := hat ⟨t', ht'⟩
        omega
      obtain ⟨t', hf⟩ := hfirst hno
      exact ⟨hlen, hno, fun t'' ht'' => ht''.unique hf.2.1 ▸ hf⟩
    · rw [Arch.size_of_lt hwrap] at hlt
      exact hlt
  · rintro ⟨hwrap, -, hpos⟩
    by_cases hlt : len < a.M
    · rw [Arch.size_of_lt hlt] at ht hin hsz ⊢
      exact ⟨hsz, fun _ => rfl, fun hno => absurd ht (hno t), hin.mpr (hpos hlt t ht)⟩
    · obtain ⟨hlen, hno, hf⟩ := hwrap (Nat.not_lt.mp hlt)
      have hf := hf t ht
      exact ⟨hlen, fun ⟨t', ht'⟩ => absurd ht' (hno t'), fun _ => ⟨t, hf⟩,
        hin.mpr (Nat.lt_of_lt_of_le hoff hf.le)⟩

/-- the root file system was searched for -/
theorem announced_search {len offset fuel r : Nat} {name : PartName} {t : PartType}
    (hsz : a.size len ≤ mtd.size) (hoff : offset < minRootfsOffs)
    (hno : ∀ t, ¬ HasRootfs a mtd (a.size len) t)
    (hr : findRootfsFrom a mtd minRootfsOffs (a.size mtd.size) fuel = some (.ok (r, t))) :
    AnnouncedGood a mtd len (partsAt mtd offset r name) ↔ AnnouncedCond a mtd len offset := by
  unfold AnnouncedGood AnnouncedCond
  obtain ⟨hlt, ht⟩ := findRootfsFrom_lt hr
  have hin := partsAt_inside offset name ht.lt
  have hM := a.size_lt mtd.size
  constructor
  · rintro ⟨hlen, hat, hfirst, hparts⟩
    have hno' : ∀ t, ¬ HasRootfs a mtd len t := by
      by_cases hw : len < a.M
      · rw [Arch.size_of_lt hw] at hno
        exact hno
      · intro t' ht'
        have : r = len := hat ⟨t', ht'⟩
        omega
    obtain ⟨t', hf⟩ := hfirst hno'
    exact ⟨fun _ => ⟨hlen, hno', fun t' ht' => absurd ht' (hno t')⟩,
      fun _ => first_search hf hlt, fun _ t' ht' => absurd ht' (hno' t')⟩
  · rintro ⟨hwrap, hsearch, -⟩
    have hf := search_first hr (hsearch hno)
    have hno' : len ≤ mtd.size ∧ ∀ t, ¬ HasRootfs a mtd len t := by
      by_cases hw : len < a.M
      · rw [Arch.size_of_lt hw] at hno hsz
        exact ⟨hsz, hno⟩
      · have h := hwrap (Nat.not_lt.mp hw)
        exact ⟨h.1, h.2.1⟩
    exact ⟨hno'.1, fun ⟨t', ht'⟩ => absurd ht' (hno'.2 t'), fun _ => ⟨t, hf⟩,
      hin.mpr (Nat.lt_of_lt_of_le hoff hf.le)⟩

theorem announced_iff {len offset fuel : Nat} {name : PartType → PartName} {p : Parts}
    (hsz : a.size len ≤ mtd.size) (hoff : offset < minRootfsOffs)
    (hp : (rootfsAfter a mtd (a.size len) fuel).map (partsAfter mtd offset name) = some (.ok p)) :
    AnnouncedGood a mtd len p ↔ AnnouncedCond a mtd len offset := by
  obtain ⟨res, hr, hres⟩ := Option.map_eq_some_iff.mp hp
  cases res with
  | error e => cases hres
  | ok rt =>
    obtain ⟨r, t⟩ := rt
    cases hres
    rcases rootfsAfter_ok hr with ⟨ht, rfl⟩ | ⟨hno, hr⟩
    · exact announced_direct hsz hoff ht
    · exact announced_search hsz hoff hno hr

theorem be16_lt (buf : List UInt8) (off : Nat) : be16 buf off < 65536 := by
  unfold be16
  have h1 := (buf.getD off 0).toNat_lt
  have h2 := (buf.getD (off + 1) 0).toNat_lt
  omega

theorem parseSeama_good_iff {hdr : List UInt8} {fuel : Nat} {p : Parts}
    (hr : mtd.readAll 0 seamaHeaderLen = .ok hdr) (hp : parseSeama a mtd fuel = some (.ok p)) :
    AnnouncedGood a mtd (seamaLen hdr) p ↔
      AnnouncedCond a mtd (seamaLen hdr) (seamaHeaderLen + seamaMeta hdr) := by
  unfold parseSeama at hp
  simp only [hr] at hp
  split at hp
  · cases hp
  split at hp
  · cases hp
  · next hsz =>
    have hmeta : seamaMeta hdr < 65536 := be16_lt hdr 6
    have hoff : 28 + seamaMeta hdr < 0x80000 := by omega
    exact announced_iff (Nat.not_lt.mp hsz) hoff hp

theorem parseTplink_good_iff {hdr : List UInt8} {fuel ofs : Nat} {p : Parts}
    (hr : mtd.readAll 0 tplinkHeaderLen = .ok hdr) (ho : tplinkKernelOfs (le32 hdr 0) = some ofs)
    (hp : parseTplink a mtd fuel = some (.ok p)) :
    AnnouncedGood a mtd (tplinkLen hdr ofs) p ↔ AnnouncedCond a mtd (tplinkLen hdr ofs) 0 := by
  unfold parseTplink at hp
  simp only [hr, ho] at hp
  split at hp
  · cases hp
  split at hp
  · cases hp
  · next hsz => exact announced_iff (Nat.not_lt.mp hsz) (by decide) hp

/-- **Seama and TP-Link**: the partitions honour the announced length just under
`AnnouncedCond`. -/
theorem announced_good_iff (a : Arch) (mtd : Mtd) (fuel : Nat) (hdr : List UInt8) (p : Parts) :
    (mtd.readAll 0 seamaHeaderLen = .ok hdr → parseSeama a mtd fuel = some (.ok p) →
      (AnnouncedGood a mtd (seamaLen hdr) p ↔
        AnnouncedCond a mtd (seamaLen hdr) (seamaHeaderLen + seamaMeta hdr))) ∧
    ∀ ofs, mtd.readAll 0 tplinkHeaderLen = .ok hdr → tplinkKernelOfs (le32 hdr 0) = some ofs →
      parseTplink a mtd fuel = some (.ok p) →
      (AnnouncedGood a mtd (tplinkLen hdr ofs) p ↔ AnnouncedCond a mtd (tplinkLen hdr ofs) 0) :=
  ⟨fun hr hp => parseSeama_good_iff hr hp, fun ofs hr ho hp => parseTplink_good_iff hr ho hp⟩

/-- a Seama header for so many bytes of meta data and of image -/
def seamaHead (metasize : UInt16) (size : UInt32) : List UInt8 :=
  put32 true 0x5EA3A417 ++ [0, 0] ++ put16 true metasize ++ put32 true size ++
    List.replicate 16 0

/-- a TP-Link image of version 1 with a kernel of `len` bytes, and a squashfs magic at `root` -/
def tplinkByte (len : UInt32) (root i : Nat) : UInt8 :=
  if root ≤ i ∧ i < root + 4 then hsqs.getD (i - root) 0
  else if i = 0 then 1
  else if i = 130 then 2
  else if 132 ≤ i ∧ i < 136 then (put32 true len).getD (i - 132) 0
  else 0

theorem tplinkDev_size : 1024 < 18446744073709551616 := by decide

theorem tplinkDev_erase : 0 < 512 ∧ 512 < 4294967296 := by decide

def tplinkDev (len : UInt32) (root : Nat) : Mtd :=
  Mtd.ofFn 1024 512 (tplinkByte len root) tplinkDev_size tplinkDev_erase

def tplinkHead (len : UInt32) (root : Nat) : List UInt8 := (List.range 512).map (tplinkByte len root)

theorem announced_good_demo :
    (AnnouncedGood ⟨false, true⟩ (twoBlocks (seamaHead 0 100) hsqs) 128
        ⟨⟨.kernel, 28, 100⟩, ⟨.rootfs, 128, 128⟩, 0⟩ ↔
      AnnouncedCond ⟨false, true⟩ (twoBlocks (seamaHead 0 100) hsqs) 128 28) ∧
    tplinkLen (tplinkHead 16 528) 128 = 528 ∧
    (AnnouncedGood ⟨false, true⟩ (tplinkDev 16 528) (tplinkLen (tplinkHead 16 528) 128)
        ⟨⟨.kernel, 0, 528⟩, ⟨.rootfs, 528, 496⟩, 0⟩ ↔
      AnnouncedCond ⟨false, true⟩ (tplinkDev 16 528) (tplinkLen (tplinkHead 16 528) 128) 0) :=
  ⟨(announced_good_iff ⟨false, true⟩ (twoBlocks (seamaHead 0 100) hsqs) 1 (seamaHead 0 100)
      ⟨⟨.kernel, 28, 100⟩, ⟨.rootfs, 128, 128⟩, 0⟩).1 (by decide +kernel) (by decide +kernel),
    by decide +kernel, (announced_good_iff ⟨false, true⟩ (tplinkDev 16 528) 1 (tplinkHead 16 528)
      ⟨⟨.kernel, 0, 528⟩, ⟨.rootfs, 528, 496⟩, 0⟩).2 128 (by decide +kernel) (by decide +kernel)
      (by decide +kernel)⟩

/-- lengths of 4 GiB and 64 bytes on small devices, with a squashfs magic at 64 -/
theorem announced_wraps :
    (seamaLen (seamaHead 37 4294967295) = 4294967360 ∧
      parseSeama ⟨false, true⟩ (twoBlocks (poke (seamaHead 37 4294967295 ++ List.replicate 64 0) 64
          hsqs) []) 1 =
        some (.ok ⟨⟨.kernel, 65, 18446744073709551615⟩, ⟨.rootfs, 64, 192⟩, 0⟩) ∧
      ¬ AnnouncedGood ⟨false, true⟩ (twoBlocks (poke (seamaHead 37 4294967295 ++
          List.replicate 64 0) 64 hsqs) []) 4294967360
        ⟨⟨.kernel, 65, 18446744073709551615⟩, ⟨.rootfs, 64, 192⟩, 0⟩) ∧
    (tplinkLen (tplinkHead 4294966848 64) 128 = 4294967360 ∧
      parseTplink ⟨false, true⟩ (tplinkDev 4294966848 64) 1 =
        some (.ok ⟨⟨.kernel, 0, 64⟩, ⟨.rootfs, 64, 960⟩, 0⟩) ∧
      ¬ AnnouncedGood ⟨false, true⟩ (tplinkDev 4294966848 64) 4294967360
        ⟨⟨.kernel, 0, 64⟩, ⟨.rootfs, 64, 960⟩, 0⟩) :=
  ⟨⟨by decide +kernel, by decide +kernel, fun h => absurd h.1 (by decide +kernel)⟩,
    ⟨by decide +kernel, by decide +kernel, fun h => absurd h.1 (by decide +kernel)⟩⟩

end Mtdsplit
