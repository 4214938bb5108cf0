import Firmware.Mtdsplit.Blocks

/-!
# mtdsplit: uImage

`__mtdsplit_parse_uimage` looks for the header of a kernel at the erase-block boundaries.  A
kernel in the first block is followed by the root file system, any other comes after it.

* `Verifier`        `find_header`, with what it promises on a buffer of `maxHeaderLen` bytes;
* `parseUimage`     the splitter;
* `announced`       a header a verifier accepts, and the length it announces, as a number;
* `parseUimage_good_iff`   exactly when all partitions made are good.

The length is kept in a `size_t` and in the variable `uimage_size`, which a rejected candidate
in the last block leaves behind.
-/

set_option linter.unusedVariables false

namespace Mtdsplit
open Img Word Machine

/-! ## the headers -/

def maxHeaderLen : Nat := 84
def uimageHeaderLen : Nat := 64

def ihMagic : Nat := 0x27051956
def ihOsLinux : UInt8 := 5
def ihTypeKernel : UInt8 := 2
def ihTypeFilesystem : UInt8 := 7

def enospc : Int := -28

def uimageVerifyDefault (buf : List UInt8) (len : Nat) : Except Int Nat :=
  if be32 buf 0 ≠ ihMagic then .error einval
  else if buf.getD 28 0 ≠ ihOsLinux then .error einval
  else if buf.getD 30 0 ≠ ihTypeKernel then .error einval
  else .ok 0

def fwMagicWnr2000v4 : Nat := 0x32303034

/-- the magics of file-system images -/
def fwMagics : List Nat :=
  [0x32303631, 0x31303031, 0x31303030, 0x32303031, 0x32303033, 0x32323030, 0x33373030, 0x33373031,
    0x31313030]

def uimageVerifyWndr3700 (buf : List UInt8) (len : Nat) : Except Int Nat :=
  let verify (expectedType : UInt8) : Except Int Nat :=
    if buf.getD 28 0 ≠ ihOsLinux ∨ buf.getD 30 0 ≠ expectedType then .error einval else .ok 0
  if be32 buf 0 ∈ fwMagics then verify ihTypeFilesystem
  else if be32 buf 0 = fwMagicWnr2000v4 then verify ihTypeKernel
  else .error einval

def fwEdimaxOffset : Nat := 20
def fwMagicEdimax : Nat := 0x43535953

def uimageFindEdimax (buf : List UInt8) (len : Nat) : Except Int Nat :=
  if len < fwEdimaxOffset + uimageHeaderLen then .error enospc
  else if be32 buf 0 ≠ fwMagicEdimax then .error einval
  else
    match uimageVerifyDefault (buf.drop fwEdimaxOffset) len with
    | .ok _ => .ok fwEdimaxOffset
    | .error _ => .error einval

/-- `find_header`: the offset of a header in the buffer, or an error -/
structure Verifier where
  find : List UInt8 → Nat → Except Int Nat
  header_in : ∀ buf ret, find buf maxHeaderLen = .ok ret → ret + uimageHeaderLen ≤ maxHeaderLen

theorem verifyDefault_in (buf : List UInt8) (ret : Nat)
    (h : uimageVerifyDefault buf maxHeaderLen = .ok ret) :
    ret + uimageHeaderLen ≤ maxHeaderLen := by
  unfold uimageVerifyDefault at h
  split at h
  · cases h
  split at h
  · cases h
  split at h
  · cases h
  · cases h
    decide

theorem verifyWndr3700_in (buf : List UInt8) (ret : Nat)
    (h : uimageVerifyWndr3700 buf maxHeaderLen = .ok ret) :
    ret + uimageHeaderLen ≤ maxHeaderLen := by
  have verify (c : Prop) [Decidable c] (h : (if c then Except.error einval else .ok 0) = .ok ret) :
      ret + uimageHeaderLen ≤ maxHeaderLen := by
    split at h
    · cases h
    · cases h
      decide
  unfold uimageVerifyWndr3700 at h
  split at h
  · exact verify _ h
  split at h
  · exact verify _ h
  · cases h

theorem findEdimax_in (buf : List UInt8) (ret : Nat)
    (h : uimageFindEdimax buf maxHeaderLen = .ok ret) :
    ret + uimageHeaderLen ≤ maxHeaderLen := by
  unfold uimageFindEdimax at h
  split at h
  · cases h
  split at h
  · cases h
  split at h
  · cases h
    decide
  · cases h

def genericVerifier : Verifier := ⟨uimageVerifyDefault, verifyDefault_in⟩
def netgearVerifier : Verifier := ⟨uimageVerifyWndr3700, verifyWndr3700_in⟩
def edimaxVerifier : Verifier := ⟨uimageFindEdimax, findEdimax_in⟩

/-! ## the splitter -/

def readUimageHeader (mtd : Mtd) (offset headerLen : Nat) : Except Int (List UInt8) :=
  mtd.readAll offset headerLen

/-- the body of the search for the uImage; the state is `uimage_size` -/
def uimageBlock (a : Arch) (mtd : Mtd) (v : Verifier) (offset uimageSize : Nat) : Nat ⊕ Nat :=
  match readUimageHeader mtd offset maxHeaderLen with
  | .error _ => .inl 0
  | .ok buf =>
    match v.find buf maxHeaderLen with
    | .error _ => .inl 0
    | .ok ret =>
      let size := a.size (uimageHeaderLen + be32 buf (ret + 12) + ret)
      if a.size (offset + size) > mtd.size then .inl size else .inr size

/-- the partitions, for a uImage found at `offset` -/
def uimageParts (a : Arch) (mtd : Mtd) (offset uimageSize fuel : Nat) : Option (Except Int Parts) :=
  if offset = 0 then
    (findRootfsFrom a mtd (a.size (offset + uimageSize)) (a.size mtd.size) fuel).map fun
      | .error e => .error e
      | .ok (rootfsOffset, t) =>
        let rootfsSize := a.sub mtd.size rootfsOffset
        if rootfsSize = 0 then .error enodev
        else .ok ⟨⟨.kernel, offset, a.sub rootfsOffset offset⟩,
          ⟨rootfsName t, rootfsOffset, rootfsSize⟩, 0⟩
  else
    match checkRootfsMagic a mtd 0 with
    | .error e => some (.error e)
    | .ok t =>
      if offset = 0 then some (.error enodev)
      else some (.ok ⟨⟨.kernel, offset, uimageSize⟩, ⟨rootfsName t, 0, offset⟩, 1⟩)

/-- `.ok` is the return value 2 with the partitions -/
def parseUimage (a : Arch) (mtd : Mtd) (v : Verifier) (fuel : Nat) : Option (Except Int Parts) :=
  (run (blocks a mtd (uimageBlock a mtd v)) fuel (0, 0)).bind fun r =>
    let offset := r.1.1
    let uimageSize := r.2.getD r.1.2
    if uimageSize = 0 then some (.error enodev) else uimageParts a mtd offset uimageSize fuel

/-! ## what is announced -/

/-- the length a header at `offset` announces, as a number -/
def announced (mtd : Mtd) (v : Verifier) (offset : Nat) : Option Nat :=
  match readUimageHeader mtd offset maxHeaderLen with
  | .error _ => none
  | .ok buf =>
    match v.find buf maxHeaderLen with
    | .error _ => none
    | .ok ret => some (uimageHeaderLen + be32 buf (ret + 12) + ret)

variable {a : Arch} {mtd : Mtd} {v : Verifier}

theorem uimageBlock_none {o s : Nat} (h : announced mtd v o = none) :
    uimageBlock a mtd v o s = .inl 0 := by
  unfold announced at h
  unfold uimageBlock
  split at h
  · rfl
  split at h
  · rfl
  · cases h

theorem uimageBlock_some {o s U : Nat} (h : announced mtd v o = some U) :
    uimageBlock a mtd v o s =
      if a.size (o + U) > mtd.size then .inl (a.size U) else .inr (a.size U) := by
  unfold announced at h
  unfold uimageBlock
  split at h
  · cases h
  split at h
  · cases h
  · cases h
    have e (n : Nat) : a.size (o + a.size n) = a.size (o + n) := Nat.add_mod_mod o n a.M
    simp only [e]

theorem announced_le {o U : Nat} (h : announced mtd v o = some U) : uimageHeaderLen ≤ U := by
  unfold announced at h
  split at h
  · cases h
  split at h
  · cases h
  · cases h
    omega

/-- the loop takes the header at `o` -/
def Accepted (a : Arch) (mtd : Mtd) (v : Verifier) (o : Nat) : Prop :=
  ∃ U, announced mtd v o = some U ∧ a.size (o + U) ≤ mtd.size

def FirstAccepted (a : Arch) (mtd : Mtd) (v : Verifier) (o : Nat) : Prop :=
  mtd.erasesize ∣ o ∧ o < mtd.size ∧ Accepted a mtd v o ∧
    ∀ o', mtd.erasesize ∣ o' → o' < o → ¬ Accepted a mtd v o'

def NoneAccepted (a : Arch) (mtd : Mtd) (v : Verifier) : Prop :=
  ∀ o, mtd.erasesize ∣ o → o < mtd.size → ¬ Accepted a mtd v o

theorem goesOn_of_not_accepted {n : Nat}
    (h : ∀ o, mtd.erasesize ∣ o → o < n → ¬ Accepted a mtd v o) :
    GoesOn mtd (uimageBlock a mtd v) n := by
  intro o hd ho s
  cases hU : announced mtd v o with
  | none => exact ⟨0, uimageBlock_none hU⟩
  | some U =>
    refine ⟨a.size U, (uimageBlock_some hU).trans (if_pos ?_)⟩
    by_contra hle
    exact h o hd ho ⟨U, hU, by omega⟩

/-- the first block whose header is taken, if there is one -/
theorem accepted_cases (a : Arch) (mtd : Mtd) (v : Verifier) :
    (∃ o, FirstAccepted a mtd v o) ∨ NoneAccepted a mtd v := by
  by_cases h : NoneAccepted a mtd v
  · exact .inr h
  · left
    simp only [NoneAccepted, not_forall, not_not] at h
    obtain ⟨o, hd, ho, hacc⟩ := h
    induction o using Nat.strongRecOn with
    | _ o ih =>
      by_cases hmin : ∃ o', mtd.erasesize ∣ o' ∧ o' < o ∧ Accepted a mtd v o'
      · obtain ⟨o', hd', hlt, hacc'⟩ := hmin
        exact ih o' hlt hd' (by omega) hacc'
      · exact ⟨o, hd, ho, hacc, fun o' hd' hlt hacc' => hmin ⟨o', hd', hlt, hacc'⟩⟩

/-! ## the two ways out of the loop -/

theorem uimage_hit {o U : Nat} (hfit : mtd.ceil mtd.size < a.M) (h : FirstAccepted a mtd v o)
    (hU : announced mtd v o = some U) :
    ∃ s, Ends (blocks a mtd (uimageBlock a mtd v)) (0, 0) ((o, s), some (a.size U)) := by
  obtain ⟨hd, ho, ⟨U', hU', hle⟩, hmin⟩ := h
  obtain rfl : U = U' := Option.some.inj (hU.symm.trans hU')
  refine blocks_hit 0 hd ho (Nat.lt_of_lt_of_le ho (Nat.le_of_lt
    (Nat.lt_of_le_of_lt (mtd.le_ceil _) hfit))) (goesOn_of_not_accepted hmin) fun s => ?_
  rw [uimageBlock_some hU, if_neg (by omega)]

/-- no header is taken: `uimage_size` is what the last block left -/
theorem uimage_out (hfit : mtd.ceil mtd.size < a.M) (h : NoneAccepted a mtd v) :
    ∃ s, Ends (blocks a mtd (uimageBlock a mtd v)) (0, 0) ((mtd.ceil mtd.size, s), none) ∧
      (s ≠ 0 ↔ ∃ o U, mtd.erasesize ∣ o ∧ o < mtd.size ∧ mtd.size ≤ o + mtd.erasesize ∧
        announced mtd v o = some U) := by
  obtain ⟨s, hs, h0, hlast⟩ := blocks_out hfit 0 (goesOn_of_not_accepted h)
  refine ⟨s, hs, fun hne => ?_, ?_⟩
  · have hpos : 0 < mtd.size := Nat.pos_of_ne_zero fun h => hne (h0 h)
    obtain ⟨o, s', hd, ho, hle, hb⟩ := hlast hpos
    cases hU : announced mtd v o with
    | none =>
      rw [uimageBlock_none hU] at hb
      exact absurd (Sum.inl.inj hb).symm hne
    | some U => exact ⟨o, U, hd, ho, hle, hU⟩
  · rintro ⟨o, U, hd, ho, hle, hU⟩ rfl
    obtain ⟨o', s', hd', ho', hle', hb⟩ := hlast (by omega)
    obtain rfl : o = o' := last_block hd hd' (by omega) (by omega)
    have hacc : ¬ a.size (o + U) ≤ mtd.size := fun h' => h o hd ho ⟨U, hU, h'⟩
    rw [uimageBlock_some hU, if_pos (by omega)] at hb
    have hzero : U % a.M = 0 := Sum.inl.inj hb
    have hsum : a.size (o + U) ≤ o := by
      unfold Arch.size
      rw [Nat.add_mod, hzero, Nat.add_zero, Nat.mod_mod]
      exact Nat.mod_le _ _
    omega

/-! ## the partitions made -/

theorem uimageParts_mono {o u n m : Nat} {res : Except Int Parts}
    (h : uimageParts a mtd o u n = some res) (hm : n ≤ m) : uimageParts a mtd o u m = some res := by
  unfold uimageParts at h ⊢
  by_cases ho : o = 0
  · simp only [if_pos ho] at h ⊢
    obtain ⟨r, hr, rfl⟩ := Option.map_eq_some_iff.mp h
    rw [findRootfsFrom_mono hr hm]
    rfl
  · simp only [if_neg ho] at h ⊢
    exact h

theorem uimageParts_zero {u : Nat} {p : Parts} (hfit : mtd.ceil mtd.size < a.M)
    (hu : Exact mtd u) (hlt : u < a.M) :
    (∃ fuel, uimageParts a mtd 0 u fuel = some (.ok p)) ↔ ∃ r t, First a mtd u mtd.size r t ∧
      p = ⟨⟨.kernel, 0, r⟩, ⟨rootfsName t, r, mtd.size - r⟩, 0⟩ := by
  have hsz : a.size mtd.size = mtd.size :=
    Arch.size_of_lt (Nat.lt_of_le_of_lt (mtd.le_ceil _) hfit)
  have hparts (r : Nat) (t : PartType) (h : First a mtd u mtd.size r t) (fuel : Nat)
      (hf : findRootfsFrom a mtd u mtd.size fuel = some (.ok (r, t))) :
      uimageParts a mtd 0 u fuel =
        some (.ok ⟨⟨.kernel, 0, r⟩, ⟨rootfsName t, r, mtd.size - r⟩, 0⟩) := by
    have hr : r < mtd.size := h.1.1
    have hM := mtd.le_ceil mtd.size
    unfold uimageParts
    simp only [Nat.zero_add, if_true, Arch.size_of_lt hlt, hsz, hf, Option.map_some,
      Arch.sub_of_le (Nat.le_of_lt hr) (by omega : mtd.size < a.M),
      Arch.sub_of_le (Nat.zero_le r) (by omega : r < a.M), if_neg (by omega : mtd.size - r ≠ 0)]
    rfl
  constructor
  · rintro ⟨fuel, h⟩
    cases hf : findRootfsFrom a mtd u mtd.size fuel with
    | none =>
      unfold uimageParts at h
      simp [Arch.size_of_lt hlt, hsz, hf] at h
    | some res =>
      rcases findRootfsFrom_sound hfit (fun _ => hu) hf with ⟨r, t, rfl, hfirst⟩ | ⟨rfl, -⟩
      · rw [hparts r t hfirst fuel hf] at h
        cases h
        exact ⟨r, t, hfirst, rfl⟩
      · unfold uimageParts at h
        simp [Arch.size_of_lt hlt, hsz, hf] at h
  · rintro ⟨r, t, h, rfl⟩
    obtain ⟨fuel, hf⟩ := (findRootfsFrom_ok_iff hfit fun _ => hu).mpr h
    exact ⟨fuel, hparts r t h fuel hf⟩

theorem uimageParts_behind {o u : Nat} {p : Parts} (ho : o ≠ 0) :
    (∃ fuel, uimageParts a mtd o u fuel = some (.ok p)) ↔ ∃ t, HasRootfs a mtd 0 t ∧
      p = ⟨⟨.kernel, o, u⟩, ⟨rootfsName t, 0, o⟩, 1⟩ := by
  unfold uimageParts
  simp only [if_neg ho, exists_const, ← checkRootfsMagic_ok]
  cases checkRootfsMagic a mtd 0 with
  | error e => simp
  | ok t =>
    constructor
    · intro h
      cases h
      exact ⟨t, rfl, rfl⟩
    · rintro ⟨t', ht, rfl⟩
      cases ht
      rfl

/-- the splitter, once the loop has ended -/
theorem parseUimage_of_ends {o s : Nat} {r : Option Nat} {p : Parts}
    (h : Ends (blocks a mtd (uimageBlock a mtd v)) (0, 0) ((o, s), r)) :
    (∃ fuel, parseUimage a mtd v fuel = some (.ok p)) ↔
      r.getD s ≠ 0 ∧ ∃ fuel, uimageParts a mtd o (r.getD s) fuel = some (.ok p) := by
  unfold parseUimage
  by_cases hz : r.getD s = 0
  · rw [h.run_bind_iff]
    · simp [hz]
    · simp [hz]
  · rw [h.run_bind_iff]
    · simp [hz]
    · simp only [if_neg hz]
      exact fun n m hn hm => uimageParts_mono hn hm

/-! ## when the partitions are good -/

/-- the partitions are on the device, and the kernel starts at a boundary with a header whose
image ends on the device -/
def UimageGood (mtd : Mtd) (v : Verifier) (p : Parts) : Prop :=
  p.Inside mtd ∧ mtd.erasesize ∣ p.kernel.offset ∧
    ∃ U, announced mtd v p.kernel.offset = some U ∧ p.kernel.offset + U ≤ mtd.size

/-- a root file system where the splitter looks for it, with the header at `o` -/
def RootfsFor (a : Arch) (mtd : Mtd) (o U : Nat) : Prop :=
  if o = 0 then ¬ NoRootfs a mtd (a.size U) mtd.size else ∃ t, HasRootfs a mtd 0 t

/-- the length at the first header taken does not wrap, and the last block has no header if
none is taken; or there is no root file system for it, or the length wraps to nothing -/
def UimageCond (a : Arch) (mtd : Mtd) (v : Verifier) : Prop :=
  (∀ o U, FirstAccepted a mtd v o → announced mtd v o = some U → RootfsFor a mtd o U →
    a.size U ≠ 0 → o + U < a.M) ∧
  (NoneAccepted a mtd v → ∀ o U, mtd.erasesize ∣ o → o + mtd.erasesize = mtd.size →
    announced mtd v o = some U → ∀ t, ¬ HasRootfs a mtd 0 t)

theorem exact_of_narrow (hw : a.wide = false) (n : Nat) : Exact mtd (a.size n) := by
  refine .inl ?_
  have h := a.size_lt n
  unfold Arch.M at h
  rw [hw] at h
  exact h

theorem fit_of_dvd (hw : a.wide = false) (hs : mtd.size < 4294967296)
    (hd : mtd.erasesize ∣ mtd.size) : mtd.ceil mtd.size < a.M := by
  rw [Mtd.ceil_of_dvd hd]
  unfold Arch.M
  rw [hw]
  exact hs

/-- what the splitter makes of the first header taken -/
theorem parseUimage_hit {o U : Nat} {p : Parts} (hw : a.wide = false)
    (hfit : mtd.ceil mtd.size < a.M) (h : FirstAccepted a mtd v o)
    (hU : announced mtd v o = some U) :
    (∃ fuel, parseUimage a mtd v fuel = some (.ok p)) ↔ a.size U ≠ 0 ∧
      if o = 0 then ∃ r t, First a mtd (a.size U) mtd.size r t ∧
        p = ⟨⟨.kernel, 0, r⟩, ⟨rootfsName t, r, mtd.size - r⟩, 0⟩
      else ∃ t, HasRootfs a mtd 0 t ∧ p = ⟨⟨.kernel, o, a.size U⟩, ⟨rootfsName t, 0, o⟩, 1⟩ := by
  obtain ⟨s, hs⟩ := uimage_hit hfit h hU
  rw [parseUimage_of_ends hs, Option.getD_some]
  refine and_congr_right fun _ => ?_
  by_cases ho : o = 0
  · subst ho
    rw [if_pos rfl, uimageParts_zero hfit (exact_of_narrow hw U) (a.size_lt U)]
  · rw [if_neg ho, uimageParts_behind ho]

/-- a kernel in the first block, with the first root file system behind it -/
theorem good_front {U r : Nat} {t : PartType} (hU : announced mtd v 0 = some U)
    (hf : First a mtd U mtd.size r t) :
    UimageGood mtd v ⟨⟨.kernel, 0, r⟩, ⟨rootfsName t, r, mtd.size - r⟩, 0⟩ := by
  have hpos : 64 ≤ U := announced_le hU
  have hr : U ≤ r := by
    rcases hf.1.2 with rfl | hr
    · exact Nat.le_refl _
    · exact Nat.le_of_lt hr.1
  have hrs : r < mtd.size := hf.1.1
  have hkernel : 0 < r ∧ 0 + r ≤ mtd.size := ⟨by omega, by omega⟩
  have hroot : 0 < mtd.size - r ∧ r + (mtd.size - r) ≤ mtd.size := ⟨by omega, by omega⟩
  have hdis : 0 + r ≤ r ∨ r + (mtd.size - r) ≤ 0 := .inl (by omega)
  have hin : 0 + U ≤ mtd.size := by omega
  exact ⟨⟨hkernel, hroot, hdis⟩, Nat.dvd_zero _, U, hU, hin⟩

/-- a kernel behind the root file system -/
theorem good_behind {o U : Nat} {t : PartType} (hd : mtd.erasesize ∣ o) (ho : o ≠ 0)
    (hU : announced mtd v o = some U) (hle : o + U ≤ mtd.size) :
    UimageGood mtd v ⟨⟨.kernel, o, U⟩, ⟨rootfsName t, 0, o⟩, 1⟩ := by
  have hpos : 64 ≤ U := announced_le hU
  have hkernel : 0 < U ∧ o + U ≤ mtd.size := ⟨by omega, hle⟩
  have hroot : 0 < o ∧ 0 + o ≤ mtd.size := ⟨by omega, by omega⟩
  have hdis : o + U ≤ 0 ∨ 0 + o ≤ o := .inr (by omega)
  exact ⟨⟨hkernel, hroot, hdis⟩, hd, U, hU, hle⟩

theorem uimageCond_of_good (hw : a.wide = false) (hfit : mtd.ceil mtd.size < a.M)
    (hgood : ∀ fuel p, parseUimage a mtd v fuel = some (.ok p) → UimageGood mtd v p) :
    UimageCond a mtd v := by
  have hM : mtd.size < a.M := Nat.lt_of_le_of_lt (mtd.le_ceil _) hfit
  refine ⟨fun o U h hU hroot hz => ?_, fun h o U hdo ho hU t ht => ?_⟩
  · -- good partitions for the header at `o` bound its length
    have key (p : Parts) (hk : p.kernel.offset = o)
        (hp : ∃ fuel, parseUimage a mtd v fuel = some (.ok p)) : o + U < a.M := by
      obtain ⟨fuel, hp⟩ := hp
      obtain ⟨-, -, U', hU', hle⟩ := hgood fuel p hp
      rw [hk] at hU' hle
      obtain rfl : U = U' := Option.some.inj (hU.symm.trans hU')
      omega
    unfold RootfsFor at hroot
    by_cases ho : o = 0
    · subst ho
      rw [if_pos rfl] at hroot
      obtain ⟨r, t, hf⟩ := exists_first hroot
      exact key ⟨⟨.kernel, 0, r⟩, ⟨rootfsName t, r, mtd.size - r⟩, 0⟩ rfl
        ((parseUimage_hit hw hfit h hU).mpr ⟨hz, (if_pos rfl).mpr ⟨r, t, hf, rfl⟩⟩)
    · rw [if_neg ho] at hroot
      obtain ⟨t, ht⟩ := hroot
      exact key ⟨⟨.kernel, o, a.size U⟩, ⟨rootfsName t, 0, o⟩, 1⟩ rfl
        ((parseUimage_hit hw hfit h hU).mpr ⟨hz, (if_neg ho).mpr ⟨t, ht, rfl⟩⟩)
  · -- the kernel would start where the device ends
    have he := mtd.erase_pos
    have hc := mtd.le_ceil mtd.size
    obtain ⟨s, hends, hne⟩ := uimage_out hfit h
    have hs0 : s ≠ 0 := hne.mpr ⟨o, U, hdo, by omega, by omega, hU⟩
    have hpos : mtd.ceil mtd.size ≠ 0 := by omega
    obtain ⟨fuel, hp⟩ := (parseUimage_of_ends hends).mpr
      ⟨hs0, (uimageParts_behind hpos).mpr ⟨t, ht, rfl⟩⟩
    obtain ⟨⟨⟨hk, hin⟩, -⟩, -⟩ := hgood fuel _ hp
    have hk' : 0 < s := hk
    have hin' : mtd.ceil mtd.size + s ≤ mtd.size := hin
    omega

theorem good_of_uimageCond (hw : a.wide = false) (hfit : mtd.ceil mtd.size < a.M)
    (hd : mtd.erasesize ∣ mtd.size) (hcond : UimageCond a mtd v) {fuel : Nat} {p : Parts}
    (hp : parseUimage a mtd v fuel = some (.ok p)) : UimageGood mtd v p := by
  obtain ⟨hfirst, hlast⟩ := hcond
  rcases accepted_cases a mtd v with ⟨o, h⟩ | h
  · obtain ⟨hdo, ho, ⟨U, hU, hle⟩, hmin⟩ := id h
    obtain ⟨hz, hp⟩ := (parseUimage_hit hw hfit h hU).mp ⟨fuel, hp⟩
    by_cases ho0 : o = 0
    · subst ho0
      rw [if_pos rfl] at hp
      obtain ⟨r, t, hf, rfl⟩ := hp
      have hroot : RootfsFor a mtd 0 U := (if_pos rfl).mpr fun hno => hno r t hf.1 hf.2.1
      have hlt := hfirst 0 U h hU hroot hz
      rw [Arch.size_of_lt (by omega : U < a.M)] at hf
      exact good_front hU hf
    · rw [if_neg ho0] at hp
      obtain ⟨t, ht, rfl⟩ := hp
      have hroot : RootfsFor a mtd o U := (if_neg ho0).mpr ⟨t, ht⟩
      have hlt := hfirst o U h hU hroot hz
      rw [Arch.size_of_lt hlt] at hle
      rw [Arch.size_of_lt (by omega : U < a.M)]
      exact good_behind hdo ho0 hU hle
  · -- the length the last block left, and no root file system for it
    obtain ⟨s, hends, hne⟩ := uimage_out hfit h
    obtain ⟨hs0, hp⟩ := (parseUimage_of_ends hends).mp ⟨fuel, hp⟩
    obtain ⟨o, U, hdo, ho, hle, hU⟩ := hne.mp hs0
    have hc : mtd.ceil mtd.size = mtd.size := Mtd.ceil_of_dvd hd
    rw [hc] at hp
    obtain ⟨t, ht, -⟩ := (uimageParts_behind (by omega)).mp hp
    have hnext : (o / mtd.erasesize + 1) * mtd.erasesize ≤ mtd.ceil mtd.size :=
      Mtd.next_le_ceil ho
    rw [Nat.add_mul, Nat.div_mul_cancel hdo, hc] at hnext
    exact absurd ht (hlast h o U hdo (by omega) hU t)

/-- **The uImage splitter**: its partitions are good on just the devices of `UimageCond`. -/
theorem parseUimage_good_iff (a : Arch) (mtd : Mtd) (v : Verifier) (hw : a.wide = false)
    (hs : mtd.size < 4294967296) (hd : mtd.erasesize ∣ mtd.size) :
    (∀ fuel p, parseUimage a mtd v fuel = some (.ok p) → UimageGood mtd v p) ↔
      UimageCond a mtd v := by
  have hfit := fit_of_dvd hw hs hd
  exact ⟨uimageCond_of_good hw hfit, fun h fuel p hp => good_of_uimageCond hw hfit hd h hp⟩

/-! ## two devices -/

/-- the header of a Linux kernel of `size` bytes -/
def kernelHeader (size : UInt32) : List UInt8 :=
  put32 true 0x27051956 ++ List.replicate 8 0 ++ put32 true size ++ List.replicate 12 0 ++ [5, 0, 2]

theorem parseUimage_kernel_first :
    parseUimage ⟨false, true⟩ (twoBlocks (kernelHeader 60) hsqs) genericVerifier 3 =
      some (.ok ⟨⟨.kernel, 0, 128⟩, ⟨.rootfs, 128, 128⟩, 0⟩) ∧
    ((∀ fuel p, parseUimage ⟨false, true⟩ (twoBlocks (kernelHeader 60) hsqs) genericVerifier fuel =
        some (.ok p) → UimageGood (twoBlocks (kernelHeader 60) hsqs) genericVerifier p) ↔
      UimageCond ⟨false, true⟩ (twoBlocks (kernelHeader 60) hsqs) genericVerifier) :=
  ⟨by decide +kernel, parseUimage_good_iff _ _ _ rfl (by decide) ⟨2, rfl⟩⟩

/-- a root file system, and a header in the last block whose kernel does not fit: the kernel
partition lies behind the device -/
theorem parseUimage_kernel_outside :
    (twoBlocks hsqs (kernelHeader 65536)).erasesize ∣ (twoBlocks hsqs (kernelHeader 65536)).size ∧
    parseUimage ⟨false, true⟩ (twoBlocks hsqs (kernelHeader 65536)) genericVerifier 3 =
      some (.ok ⟨⟨.kernel, 256, 65600⟩, ⟨.rootfs, 0, 256⟩, 1⟩) ∧
    ¬ UimageGood (twoBlocks hsqs (kernelHeader 65536)) genericVerifier
      ⟨⟨.kernel, 256, 65600⟩, ⟨.rootfs, 0, 256⟩, 1⟩ :=
  ⟨⟨2, rfl⟩, by decide +kernel, fun h => absurd h.1 (by decide +kernel)⟩

end Mtdsplit
