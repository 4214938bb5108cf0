import Firmware.Mtdsplit.Blocks

/-!
# mtdsplit: what is left behind a squashfs

`mtdsplit_parse_squashfs` makes the partition `rootfs_data` of what the squashfs leaves of its
own partition, from the next erase-block boundary of the parent device on.

* `RootfsPart`               a partition inside its parent device;
* `getSquashfsLen`, `parseSquashfs`   the splitter;
* `SquashfsGood`             the partition lies behind the image and inside, in whole blocks;
* `parseSquashfs_good_iff`   exactly when it does.

The length of the image is cut to a `size_t`, the rounding of a number that is not a multiple of
the erase size is done in 32 bits, and nothing compares the rounded offset with the size.
-/

set_option linter.unusedVariables false

namespace Mtdsplit
open Img Word

/-! ## the splitter -/

/-- a partition of `parent` from `offset` on -/
structure RootfsPart where
  master : Mtd
  parent : Mtd
  offset : Nat
  inside : offset + master.size ≤ parent.size

def superBlockLen : Nat := 48

def le64 (buf : List UInt8) (off : Nat) : Nat := le32 buf off + 4294967296 * le32 buf (off + 4)

/-- `bytes_used` of a superblock -/
def bytesUsed (sb : List UInt8) : Nat := le64 sb 40

def getSquashfsLen (a : Arch) (mtd : Mtd) (offset : Nat) : Except Int Nat :=
  match mtd.readAll offset superBlockLen with
  | .error _ => .error eio
  | .ok sb =>
    if le32 sb 0 ≠ squashfsMagic.toNat then .error einval
    else
      let retlen := a.size (bytesUsed sb)
      if retlen = 0 then .error enodev
      else if a.size (offset + retlen) > mtd.size then .error einval
      else .ok retlen

/-- `.ok` is the return value 1 with the partition -/
def parseSquashfs (a : Arch) (pt : RootfsPart) : Except Int Part :=
  match getSquashfsLen a pt.master 0 with
  | .error e => .error e
  | .ok squashfsLen =>
    let partOffset := a.size pt.offset
    let offset := sub64 (pt.parent.roundupToEb (a.size (partOffset + squashfsLen))) partOffset
    .ok ⟨.rootfsData, offset, pt.master.rounddownToEb (sub64 pt.master.size offset)⟩

/-! ## rounding -/

theorem trunc_mul (q e : Nat) : q % 4294967296 * e % 4294967296 = q * e % 4294967296 := by
  rw [Nat.mul_mod, Nat.mod_mod, ← Nat.mul_mod]

variable {a : Arch} {mtd : Mtd}

theorem Mtd.roundupToEb_of_dvd {n : Nat} (h : mtd.erasesize ∣ n) : mtd.roundupToEb n = n :=
  if_pos (Nat.mod_eq_zero_of_dvd h)

theorem Mtd.ceil_of_not_dvd {n : Nat} (h : ¬ mtd.erasesize ∣ n) :
    mtd.ceil n = (n / mtd.erasesize + 1) * mtd.erasesize := by
  have he := mtd.erase_pos
  have hpos : 0 < n % mtd.erasesize :=
    Nat.pos_of_ne_zero fun h0 => h (Nat.dvd_of_mod_eq_zero h0)
  have hn := Nat.div_add_mod n mtd.erasesize
  have hlt := Nat.mod_lt n he
  unfold ceil
  congr 1
  have hsum : n + mtd.erasesize - 1 =
      n % mtd.erasesize - 1 + mtd.erasesize * (n / mtd.erasesize + 1) := by
    rw [Nat.mul_succ]
    omega
  rw [hsum, Nat.add_mul_div_left _ _ he, Nat.div_eq_of_lt (by omega), Nat.zero_add]

theorem Mtd.roundupToEb_of_not_dvd {n : Nat} (h : ¬ mtd.erasesize ∣ n) :
    mtd.roundupToEb n = mtd.ceil n % 4294967296 := by
  unfold roundupToEb divByEb
  rw [if_neg fun h0 => h (Nat.dvd_of_mod_eq_zero h0), ceil_of_not_dvd h, ← trunc_mul,
    Nat.mod_add_mod, trunc_mul]

/-- the rounded offset is not below the number just when the rounding does not wrap -/
theorem Mtd.le_roundupToEb_iff (n : Nat) : n ≤ mtd.roundupToEb n ↔
    mtd.erasesize ∣ n ∨ mtd.ceil n < 4294967296 := by
  by_cases hd : mtd.erasesize ∣ n
  · rw [roundupToEb_of_dvd hd]
    exact ⟨fun _ => .inl hd, fun _ => Nat.le_refl n⟩
  · have hle := mtd.le_ceil n
    rw [roundupToEb_of_not_dvd hd]
    constructor
    · intro h
      refine .inr ?_
      have he := mtd.erase_lt
      have hc : mtd.ceil n ≤ n + mtd.erasesize - 1 := Nat.div_mul_le_self _ _
      omega
    · rintro (h | h)
      · exact absurd h hd
      · rw [Nat.mod_eq_of_lt h]
        exact hle

theorem Mtd.roundupToEb_eq {n : Nat} (h : mtd.erasesize ∣ n ∨ mtd.ceil n < 4294967296) :
    mtd.roundupToEb n = mtd.ceil n := by
  by_cases hd : mtd.erasesize ∣ n
  · rw [roundupToEb_of_dvd hd, ceil_of_dvd hd]
  · rw [roundupToEb_of_not_dvd hd, Nat.mod_eq_of_lt (h.resolve_left hd)]

theorem Mtd.dvd_ceil (mtd : Mtd) (n : Nat) : mtd.erasesize ∣ mtd.ceil n := Nat.dvd_mul_left _ _

theorem Mtd.rounddownToEb_le (mtd : Mtd) (n : Nat) : mtd.rounddownToEb n ≤ n := by
  unfold rounddownToEb divByEb
  split
  · exact Nat.le_refl n
  · rw [trunc_mul]
    exact (Nat.mod_le _ _).trans (Nat.div_mul_le_self _ _)

/-- the rounded size is a multiple of the erase size -/
def RoundsDown (mtd : Mtd) (n : Nat) : Prop :=
  mtd.erasesize ∣ n ∨ mtd.erasesize ∣ n / mtd.erasesize * mtd.erasesize % 4294967296

theorem Mtd.dvd_rounddownToEb_iff (n : Nat) :
    mtd.erasesize ∣ mtd.rounddownToEb n ↔ RoundsDown mtd n := by
  unfold rounddownToEb divByEb RoundsDown
  by_cases hd : n % mtd.erasesize = 0
  · rw [if_pos hd]
    have := Nat.dvd_of_mod_eq_zero hd
    exact ⟨fun _ => .inl this, fun _ => this⟩
  · rw [if_neg hd, trunc_mul]
    exact ⟨.inr, fun h => h.resolve_left fun h => hd (Nat.mod_eq_zero_of_dvd h)⟩

/-! ## when the partition is good -/

/-- the partition starts behind the image at a boundary of the parent, and it is inside the
partition of the image, in whole erase blocks -/
def SquashfsGood (pt : RootfsPart) (bytesUsed : Nat) (p : Part) : Prop :=
  bytesUsed ≤ p.offset ∧ pt.parent.erasesize ∣ pt.offset + p.offset ∧
    p.stop ≤ pt.master.size ∧ pt.master.erasesize ∣ p.size

/-- the end of the image in the parent is below the limit of `size_t`, can be rounded up, and is
still inside then; and the offset of the partition and the size of the rest do not lose a
multiple of the erase size -/
def SquashfsCond (a : Arch) (pt : RootfsPart) (bytesUsed : Nat) : Prop :=
  let start := a.size pt.offset
  let stop := start + bytesUsed
  stop < a.M ∧ (pt.parent.erasesize ∣ stop ∨ pt.parent.ceil stop < 4294967296) ∧
    pt.parent.ceil stop ≤ start + pt.master.size ∧
    pt.parent.erasesize ∣ pt.offset - start ∧
    RoundsDown pt.master (start + pt.master.size - pt.parent.ceil stop)

theorem getSquashfsLen_ok {len : Nat} (h : getSquashfsLen a mtd 0 = .ok len) :
    ∃ sb, mtd.readAll 0 superBlockLen = .ok sb ∧ len = a.size (bytesUsed sb) ∧ len ≤ mtd.size := by
  unfold getSquashfsLen at h
  cases hr : mtd.readAll 0 superBlockLen with
  | error e =>
    rw [hr] at h
    cases h
  | ok sb =>
    simp only [hr, Nat.zero_add] at h
    have hmod : a.size (a.size (bytesUsed sb)) = a.size (bytesUsed sb) :=
      Arch.size_of_lt (a.size_lt _)
    split at h
    · cases h
    split at h
    · cases h
    split at h
    · cases h
    · next hle =>
      cases h
      exact ⟨sb, rfl, rfl, by rw [hmod] at hle; omega⟩

theorem Arch.size_le (a : Arch) (n : Nat) : a.size n ≤ n := Nat.mod_le _ _

theorem Arch.M_le_64 (a : Arch) : a.M ≤ 18446744073709551616 := by
  unfold Arch.M
  split <;> omega

theorem RootfsPart.lt (pt : RootfsPart) :
    pt.offset + pt.master.size < 18446744073709551616 :=
  Nat.lt_of_le_of_lt pt.inside pt.parent.size_lt

/-- a good partition starts at the rounded end of the image -/
theorem squashfs_end {pt : RootfsPart} {b r : Nat} (hr : r = a.size (a.size pt.offset + a.size b))
    (hoff : b ≤ sub64 (pt.parent.roundupToEb r) (a.size pt.offset))
    (hin : sub64 (pt.parent.roundupToEb r) (a.size pt.offset) ≤ pt.master.size) :
    a.size pt.offset + b < a.M ∧ r = a.size pt.offset + b ∧ r ≤ pt.parent.roundupToEb r ∧
      sub64 (pt.parent.roundupToEb r) (a.size pt.offset) =
        pt.parent.roundupToEb r - a.size pt.offset := by
  have hpo := a.size_le pt.offset
  have hlt := pt.lt
  have hM := a.M_le
  have hM' := a.M_le_64
  have hrM : r < a.M := hr ▸ a.size_lt _
  have hup : pt.parent.roundupToEb r < 18446744073709551616 ∧
      (pt.parent.roundupToEb r = r ∨ pt.parent.roundupToEb r < 4294967296) := by
    by_cases hd : pt.parent.erasesize ∣ r
    · rw [Mtd.roundupToEb_of_dvd hd]
      exact ⟨by omega, .inl rfl⟩
    · rw [Mtd.roundupToEb_of_not_dvd hd]
      have := Nat.mod_lt (pt.parent.ceil r) (show 0 < 4294967296 by omega)
      exact ⟨by omega, .inr this⟩
  -- an offset that wrapped would not be inside
  have hge : a.size pt.offset ≤ pt.parent.roundupToEb r := by
    by_contra hge
    unfold sub64 at hin
    omega
  have hsub := sub64_of_le hge hup.1
  rw [hsub] at hoff
  have hsum : a.size pt.offset + b < a.M := by omega
  have hre : r = a.size pt.offset + b := by
    rw [hr, Arch.size_of_lt (by omega : b < a.M), Arch.size_of_lt hsum]
  exact ⟨hsum, hre, by omega, hsub⟩

/-- **The squashfs splitter**: its partition is good just under `SquashfsCond`. -/
theorem parseSquashfs_good_iff (a : Arch) (pt : RootfsPart) (sb : List UInt8) (p : Part)
    (hsb : pt.master.readAll 0 superBlockLen = .ok sb) (hp : parseSquashfs a pt = .ok p) :
    SquashfsGood pt (bytesUsed sb) p ↔ SquashfsCond a pt (bytesUsed sb) := by
  unfold parseSquashfs at hp
  cases hl : getSquashfsLen a pt.master 0 with
  | error e =>
    rw [hl] at hp
    cases hp
  | ok len =>
    rw [hl] at hp
    cases hp
    obtain ⟨sb', hsb', rfl, hle⟩ := getSquashfsLen_ok hl
    obtain rfl : sb = sb' := Except.ok.inj (hsb.symm.trans hsb')
    have hpo := a.size_le pt.offset
    have hlt := pt.lt
    have hM' := a.M_le_64
    unfold SquashfsGood SquashfsCond Part.stop
    simp only
    generalize hr : a.size (a.size pt.offset + a.size (bytesUsed sb)) = r
    constructor
    · rintro ⟨hoff, hal, hstop, hmul⟩
      obtain ⟨hsum, hre, hup, hsub⟩ := squashfs_end hr.symm hoff
        (Nat.le_of_add_right_le hstop)
      have hc := (Mtd.le_roundupToEb_iff r).mp hup
      have he := Mtd.roundupToEb_eq hc
      rw [hsub, he] at hal hstop hmul hoff
      rw [← hre]
      have hle' := pt.parent.le_ceil r
      have hin : pt.parent.ceil r - a.size pt.offset ≤ pt.master.size :=
        Nat.le_of_add_right_le hstop
      refine ⟨hre ▸ hsum, hc, by omega, ?_, ?_⟩
      · have hd := pt.parent.dvd_ceil r
        rw [show pt.offset + (pt.parent.ceil r - a.size pt.offset) =
          pt.offset - a.size pt.offset + pt.parent.ceil r by omega] at hal
        exact (Nat.dvd_add_left hd).mp hal
      · rw [sub64_of_le hin (by omega)] at hmul
        rw [show a.size pt.offset + pt.master.size - pt.parent.ceil r =
          pt.master.size - (pt.parent.ceil r - a.size pt.offset) by omega]
        exact (Mtd.dvd_rounddownToEb_iff _).mp hmul
    · rintro ⟨hsum, hc, hin, hal, hmul⟩
      rw [Arch.size_of_lt (by omega : bytesUsed sb < a.M), Arch.size_of_lt hsum] at hr
      rw [hr] at hc hin hmul
      have hle' := pt.parent.le_ceil r
      rw [Mtd.roundupToEb_eq hc, sub64_of_le (by omega) (by omega),
        sub64_of_le (by omega : pt.parent.ceil r - a.size pt.offset ≤ pt.master.size) (by omega)]
      refine ⟨by omega, ?_, ?_, ?_⟩
      · rw [show pt.offset + (pt.parent.ceil r - a.size pt.offset) =
          pt.offset - a.size pt.offset + pt.parent.ceil r by omega]
        exact Nat.dvd_add hal (pt.parent.dvd_ceil r)
      · have := pt.master.rounddownToEb_le
          (pt.master.size - (pt.parent.ceil r - a.size pt.offset))
        omega
      · rw [show a.size pt.offset + pt.master.size - pt.parent.ceil r =
          pt.master.size - (pt.parent.ceil r - a.size pt.offset) by omega] at hmul
        exact (Mtd.dvd_rounddownToEb_iff _).mpr hmul

/-- the superblock of an image of so many bytes -/
def superBlock (bytes : UInt32) : List UInt8 :=
  hsqs ++ List.replicate 36 0 ++ put32 false bytes ++ List.replicate 4 0

theorem tightPart_size : 100 < 18446744073709551616 := by decide

theorem tightPart_inside : 0 + 100 ≤ 256 := by decide

theorem roomyPart_inside : 0 + 256 ≤ 256 := by decide

/-- an image that leaves a block of its partition -/
def roomyPart : RootfsPart :=
  ⟨twoBlocks (superBlock 100) [], twoBlocks (superBlock 100) [], 0, roomyPart_inside⟩

/-- an image that ends in the last, incomplete block of its partition -/
def tightPart : RootfsPart :=
  ⟨Mtd.ofFn 100 128 (fun i => (superBlock 96).getD i 0) tightPart_size twoBlocks_erase,
    twoBlocks (superBlock 96) [], 0, tightPart_inside⟩

theorem parseSquashfs_roomy :
    SquashfsGood roomyPart 100 ⟨.rootfsData, 128, 128⟩ ↔
      SquashfsCond ⟨false, false⟩ roomyPart 100 :=
  parseSquashfs_good_iff ⟨false, false⟩ roomyPart (superBlock 100) ⟨.rootfsData, 128, 128⟩
    (by decide +kernel) (by decide +kernel)

/-- the partition starts behind the one it is cut from, and is larger -/
theorem parseSquashfs_tight :
    parseSquashfs ⟨false, false⟩ tightPart = .ok ⟨.rootfsData, 128, 4294967168⟩ ∧
      ¬ SquashfsGood tightPart 96 ⟨.rootfsData, 128, 4294967168⟩ :=
  ⟨by decide +kernel, fun h => absurd h.2.2.1 (by decide +kernel)⟩

end Mtdsplit
