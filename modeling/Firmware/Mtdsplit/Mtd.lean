import Firmware.Lib.Bytes
import Firmware.Lib.Scan

/-!
# mtdsplit: the search for the root file system

The splitters cut a flash device into partitions by the headers they find on it.  `mtd_read` is
the driver's: it returns what it read, possibly less than it was asked for, or an error, and it
fails outside the device.

* `Arch`, `Mtd`          the width of `size_t` and the byte order; the device;
* `checkRootfsMagic`     the type of the file system at an offset;
* `findRootfsFrom`       the first file system from an offset on;
* `First`                what that means: the offset itself, then the erase-block boundaries.
-/

set_option linter.unusedVariables false

namespace Mtdsplit
open Img Word Machine

/-! ## the machine and the device -/

structure Arch where
  wide : Bool
  big : Bool
deriving DecidableEq

/-- the number of values of a `size_t` -/
def Arch.M (a : Arch) : Nat := if a.wide then 18446744073709551616 else 4294967296

/-- conversion to `size_t` -/
def Arch.size (a : Arch) (n : Nat) : Nat := n % a.M

/-- `struct mtd_info`; `read` is `mtd_read` of so many bytes at an offset -/
structure Mtd where
  size : Nat
  erasesize : Nat
  read : Nat → Nat → Except Int (List UInt8)
  size_lt : size < 18446744073709551616
  erase_pos : 0 < erasesize
  erase_lt : erasesize < 4294967296
  inside : ∀ off n d, read off n = .ok d → off + n ≤ size

/-- a device that can be read everywhere; `f` is the byte at an offset -/
def Mtd.ofFn (size erasesize : Nat) (f : Nat → UInt8) (hs : size < 18446744073709551616)
    (he : 0 < erasesize ∧ erasesize < 4294967296) : Mtd where
  size := size
  erasesize := erasesize
  read off n := if off + n ≤ size then .ok ((List.range n).map fun i => f (off + i)) else .error (-22)
  size_lt := hs
  erase_pos := he.1
  erase_lt := he.2
  inside off n d h := by
    by_contra hn
    rw [if_neg hn] at h
    cases h

variable {a : Arch} {mtd : Mtd}

theorem Arch.M_le (a : Arch) : 4294967296 ≤ a.M := by
  unfold Arch.M
  split <;> omega

theorem Arch.size_of_lt {n : Nat} (h : n < a.M) : a.size n = n := Nat.mod_eq_of_lt h

theorem Arch.size_lt (a : Arch) (n : Nat) : a.size n < a.M :=
  Nat.mod_lt _ (by have := a.M_le; omega)

/-- `mtd_div_by_eb` returns a `uint32_t` -/
def Mtd.divByEb (mtd : Mtd) (sz : Nat) : Nat := sz / mtd.erasesize % 4294967296

def Mtd.rounddownToEb (mtd : Mtd) (sz : Nat) : Nat :=
  if sz % mtd.erasesize = 0 then sz else mtd.divByEb sz * mtd.erasesize % 4294967296

def Mtd.roundupToEb (mtd : Mtd) (sz : Nat) : Nat :=
  if sz % mtd.erasesize = 0 then sz else (mtd.divByEb sz + 1) * mtd.erasesize % 4294967296

def nextEb (a : Arch) (mtd : Mtd) (offset : Nat) : Nat :=
  a.size (mtd.rounddownToEb offset + mtd.erasesize)

/-! ## the root file system -/

inductive PartType where
  | squashfs
  | jffs2
  | ubi
deriving DecidableEq

def squashfsMagic : UInt32 := 0x73717368
def jffs2Magic : UInt32 := 0x19852003
def ubiEcMagic : UInt32 := 0x55424923

def eio : Int := -5
def enodev : Int := -19
def einval : Int := -22

/-- the JFFS2 magic is compared in the byte order of the machine -/
def checkRootfsMagic (a : Arch) (mtd : Mtd) (offset : Nat) : Except Int PartType :=
  match mtd.read offset 4 with
  | .error e => .error e
  | .ok d =>
    if d.length ≠ 4 then .error eio
    else if get32 false d = squashfsMagic then .ok .squashfs
    else if get32 a.big d = jffs2Magic then .ok .jffs2
    else if get32 true d = ubiEcMagic then .ok .ubi
    else .error einval

def rootfsStep (a : Arch) (mtd : Mtd) (limit : Nat) : Nat → Nat ⊕ (Nat × Option PartType) :=
  Scan.step (fun offset => offset < limit) (nextEb a mtd)
    fun offset => (checkRootfsMagic a mtd offset).toOption

/-- the offset and the type, or `-ENODEV`; `none` is a search that needs more rounds -/
def findRootfsFrom (a : Arch) (mtd : Mtd) (start limit fuel : Nat) :
    Option (Except Int (Nat × PartType)) :=
  (run (rootfsStep a mtd limit) fuel start).map fun r =>
    match r.2 with
    | some t => .ok (r.1, t)
    | none => .error enodev

/-! ## what the search is for -/

def PartType.magic (a : Arch) : PartType → List UInt8
  | .squashfs => put32 false squashfsMagic
  | .jffs2 => put32 a.big jffs2Magic
  | .ubi => put32 true ubiEcMagic

/-- the magic of a file system of type `t` can be read at `offset` -/
def HasRootfs (a : Arch) (mtd : Mtd) (offset : Nat) (t : PartType) : Prop :=
  mtd.read offset 4 = .ok (t.magic a)

instance (a : Arch) (mtd : Mtd) (offset : Nat) (t : PartType) :
    Decidable (HasRootfs a mtd offset t) := inferInstanceAs (Decidable (_ = _))

/-- the offsets that count: `start` and the erase-block boundaries behind it -/
def Candidate (mtd : Mtd) (start limit r : Nat) : Prop :=
  r < limit ∧ (r = start ∨ start < r ∧ mtd.erasesize ∣ r)

def First (a : Arch) (mtd : Mtd) (start limit r : Nat) (t : PartType) : Prop :=
  Candidate mtd start limit r ∧ HasRootfs a mtd r t ∧
    ∀ r' t', r' < r → Candidate mtd start limit r' → ¬ HasRootfs a mtd r' t'

def NoRootfs (a : Arch) (mtd : Mtd) (start limit : Nat) : Prop :=
  ∀ r t, Candidate mtd start limit r → ¬ HasRootfs a mtd r t

theorem PartType.magic_length (a : Arch) (t : PartType) : (t.magic a).length = 4 := by
  cases t <;> exact put32_length _ _

theorem magic_ne :
    (∀ big, put32 big jffs2Magic ≠ put32 false squashfsMagic) ∧
    (∀ big : Bool, put32 true ubiEcMagic ≠ put32 false squashfsMagic) ∧
    ∀ big, put32 true ubiEcMagic ≠ put32 big jffs2Magic := by decide

theorem checkRootfsMagic_ok {offset : Nat} {t : PartType} :
    checkRootfsMagic a mtd offset = .ok t ↔ HasRootfs a mtd offset t := by
  unfold checkRootfsMagic HasRootfs
  cases mtd.read offset 4 with
  | error e => simp
  | ok d =>
    simp only [Except.ok.injEq]
    by_cases hd : d.length = 4
    · rw [if_neg (by omega)]
      simp only [get32_eq_iff hd]
      constructor
      · intro h
        split at h
        · next e => cases h; exact e
        split at h
        · next e => cases h; exact e
        split at h
        · next e => cases h; exact e
        · cases h
      · rintro rfl
        cases t with
        | squashfs => exact if_pos rfl
        | jffs2 =>
          exact (if_neg (magic_ne.1 a.big)).trans (if_pos rfl)
        | ubi =>
          exact (if_neg (magic_ne.2.1 a.big)).trans
            ((if_neg (magic_ne.2.2 a.big)).trans (if_pos rfl))
    · rw [if_pos hd]
      constructor
      · intro h
        cases h
      · rintro rfl
        exact absurd (t.magic_length a) hd

theorem toOption_eq_some {t : PartType} {offset : Nat} :
    (checkRootfsMagic a mtd offset).toOption = some t ↔ HasRootfs a mtd offset t := by
  rw [← checkRootfsMagic_ok]
  cases checkRootfsMagic a mtd offset <;> simp [Except.toOption]

theorem toOption_eq_none {offset : Nat} :
    (checkRootfsMagic a mtd offset).toOption = none ↔ ∀ t, ¬ HasRootfs a mtd offset t := by
  rw [Option.eq_none_iff_forall_ne_some]
  exact forall_congr' fun t => not_congr toOption_eq_some

/-! ## the steps of the search -/

/-- the end of the erase block in which the last byte before `n` lies -/
def Mtd.ceil (mtd : Mtd) (n : Nat) : Nat := (n + mtd.erasesize - 1) / mtd.erasesize * mtd.erasesize

/-- where the next boundary is computed without wrapping -/
def Exact (mtd : Mtd) (offset : Nat) : Prop :=
  offset < 4294967296 ∨ mtd.erasesize ∣ offset

theorem Mtd.rounddownToEb_eq {offset : Nat} (h : Exact mtd offset) :
    mtd.rounddownToEb offset = offset / mtd.erasesize * mtd.erasesize := by
  unfold rounddownToEb divByEb
  by_cases hd : offset % mtd.erasesize = 0
  · rw [if_pos hd, Nat.div_mul_cancel (Nat.dvd_of_mod_eq_zero hd)]
  · rw [if_neg hd]
    have hlt : offset < 4294967296 := h.resolve_right fun h => hd (Nat.mod_eq_zero_of_dvd h)
    have h1 := Nat.div_le_self offset mtd.erasesize
    have h2 := Nat.div_mul_le_self offset mtd.erasesize
    rw [Nat.mod_eq_of_lt (by omega : offset / mtd.erasesize < 4294967296),
      Nat.mod_eq_of_lt (by omega)]

theorem Mtd.lt_next (mtd : Mtd) (offset : Nat) :
    offset < (offset / mtd.erasesize + 1) * mtd.erasesize := by
  have h := Nat.lt_mul_div_succ offset mtd.erase_pos
  rw [Nat.mul_comm] at h
  exact h

theorem Mtd.next_le_ceil {offset limit : Nat} (h : offset < limit) :
    (offset / mtd.erasesize + 1) * mtd.erasesize ≤ mtd.ceil limit := by
  unfold ceil
  refine Nat.mul_le_mul_right _ ?_
  rw [show limit + mtd.erasesize - 1 = limit - 1 + mtd.erasesize by omega,
    Nat.add_div_right _ mtd.erase_pos]
  exact Nat.succ_le_succ (Nat.div_le_div_right (by omega))

theorem nextEb_eq {offset : Nat} (hM : (offset / mtd.erasesize + 1) * mtd.erasesize < a.M)
    (he : Exact mtd offset) :
    nextEb a mtd offset = (offset / mtd.erasesize + 1) * mtd.erasesize := by
  unfold nextEb
  rw [Mtd.rounddownToEb_eq he, ← Nat.succ_mul]
  exact Arch.size_of_lt hM

/-- behind `offset` the candidates are those from the next boundary on -/
theorem candidate_iff {offset limit r : Nat} (h : offset < limit) :
    Candidate mtd offset limit r ↔
      r = offset ∨ Candidate mtd ((offset / mtd.erasesize + 1) * mtd.erasesize) limit r := by
  unfold Candidate
  constructor
  · rintro ⟨hr, rfl | ⟨hlt, k, rfl⟩⟩
    · exact .inl rfl
    · have hk : offset / mtd.erasesize + 1 ≤ k :=
        Nat.succ_le_of_lt ((Nat.div_lt_iff_lt_mul mtd.erase_pos).mpr (by rwa [Nat.mul_comm]))
      rcases hk.lt_or_eq with hk | rfl
      · refine .inr ⟨hr, .inr ⟨?_, k, rfl⟩⟩
        rw [Nat.mul_comm]
        exact Nat.mul_lt_mul_of_pos_left hk mtd.erase_pos
      · exact .inr ⟨hr, .inl (Nat.mul_comm _ _)⟩
  · have hlt := mtd.lt_next offset
    rintro (rfl | ⟨hr, rfl | ⟨hlt', hd⟩⟩)
    · exact ⟨h, .inl rfl⟩
    · exact ⟨hr, .inr ⟨hlt, Nat.dvd_mul_left _ _⟩⟩
    · exact ⟨hr, .inr ⟨by omega, hd⟩⟩

/-- what the loop of the search ends with -/
def Found (a : Arch) (mtd : Mtd) (start limit : Nat) : Nat × Option PartType → Prop
  | (r, some t) => First a mtd start limit r t
  | (_, none) => NoRootfs a mtd start limit

theorem found_step {offset limit : Nat} {res : Nat × Option PartType} (h : offset < limit)
    (hno : ∀ t, ¬ HasRootfs a mtd offset t)
    (hf : Found a mtd ((offset / mtd.erasesize + 1) * mtd.erasesize) limit res) :
    Found a mtd offset limit res := by
  obtain ⟨r, o⟩ := res
  cases o with
  | none =>
    intro r t hc
    rcases (candidate_iff h).mp hc with rfl | hc
    · exact hno t
    · exact hf r t hc
  | some t =>
    obtain ⟨hc, hr, hmin⟩ := hf
    refine ⟨(candidate_iff h).mpr (.inr hc), hr, fun r' t' hlt hc' => ?_⟩
    rcases (candidate_iff h).mp hc' with rfl | hc'
    · exact hno t'
    · exact hmin r' t' hlt hc'

theorem rootfsStep_skip {offset limit : Nat}
    (hM : (offset / mtd.erasesize + 1) * mtd.erasesize < a.M) (he : Exact mtd offset)
    (h : offset < limit) (hno : ∀ t, ¬ HasRootfs a mtd offset t) :
    rootfsStep a mtd limit offset = .inl ((offset / mtd.erasesize + 1) * mtd.erasesize) := by
  rw [← nextEb_eq hM he]
  exact Scan.step_skip (x := offset) (decide_eq_true h) (toOption_eq_none.mpr hno)

theorem rootfsStep_hit {offset limit : Nat} {t : PartType} (h : offset < limit)
    (ht : HasRootfs a mtd offset t) :
    rootfsStep a mtd limit offset = .inr (offset, some t) :=
  Scan.step_hit (x := offset) (decide_eq_true h) (toOption_eq_some.mpr ht)

theorem rootfsStep_out {offset limit : Nat} (h : limit ≤ offset) :
    rootfsStep a mtd limit offset = .inr (offset, none) :=
  Scan.step_out (x := offset) (decide_eq_false (by omega))

/-- a first file system below the limit is reached before any offset can wrap -/
theorem First.ends {start limit r : Nat} {t : PartType} (h : First a mtd start limit r t)
    (hM : limit ≤ a.M) (he : Exact mtd start) : Ends (rootfsStep a mtd limit) start (r, some t) := by
  induction hn : r - start using Nat.strongRecOn generalizing start with
  | _ n ih =>
    subst hn
    obtain ⟨⟨hr, hc⟩, ht, hmin⟩ := h
    rcases hc with rfl | ⟨hlt, hd⟩
    · exact Ends.done (rootfsStep_hit hr ht)
    · have hs : start < limit := by omega
      have hno : ∀ t, ¬ HasRootfs a mtd start t := fun t' => hmin start t' hlt ⟨hs, .inl rfl⟩
      have hnext := mtd.lt_next start
      have hcand := (candidate_iff hs).mp ⟨hr, .inr ⟨hlt, hd⟩⟩
      have hle : (start / mtd.erasesize + 1) * mtd.erasesize ≤ r := by
        rcases hcand with rfl | ⟨-, rfl | ⟨h, -⟩⟩
        · exact absurd hlt (Nat.lt_irrefl _)
        · exact Nat.le_refl _
        · exact Nat.le_of_lt h
      refine (ends_step (rootfsStep_skip (by omega) he hs hno)).mpr
        (ih (r - (start / mtd.erasesize + 1) * mtd.erasesize) (by omega)
          ⟨hcand.resolve_left (by omega), ht, fun r' t' hlt' hc' => ?_⟩
          (.inr (Nat.dvd_mul_left _ _)) rfl)
      exact hmin r' t' hlt' ((candidate_iff hs).mpr (.inr hc'))

/-- **The search** ends with the first root file system. -/
theorem rootfs_ends {start limit : Nat} (hl : mtd.ceil limit < a.M)
    (he : start < limit → Exact mtd start) :
    ∃ res, Ends (rootfsStep a mtd limit) start res ∧ Found a mtd start limit res := by
  induction hn : limit - start using Nat.strongRecOn generalizing start with
  | _ n ih =>
    subst hn
    by_cases h : start < limit
    · by_cases ht : ∃ t, HasRootfs a mtd start t
      · obtain ⟨t, ht⟩ := ht
        refine ⟨(start, some t), Ends.done (rootfsStep_hit h ht), ⟨h, .inl rfl⟩, ht,
          fun r' t' hlt hc => ?_⟩
        rcases hc.2 with rfl | hc
        · exact absurd hlt (Nat.lt_irrefl _)
        · exact absurd hlt (by omega)
      · have hno := not_exists.mp ht
        have hlt := mtd.lt_next start
        obtain ⟨res, hr, hf⟩ := ih (limit - (start / mtd.erasesize + 1) * mtd.erasesize) (by omega)
          (fun _ => .inr (Nat.dvd_mul_left _ _)) rfl
        have hM := Nat.lt_of_le_of_lt (Mtd.next_le_ceil h) hl
        exact ⟨res, (ends_step (rootfsStep_skip hM (he h) h hno)).mpr hr, found_step h hno hf⟩
    · refine ⟨(start, none), Ends.done (rootfsStep_out (Nat.not_lt.mp h)), fun r t hc => ?_⟩
      have := hc.1
      rcases hc.2 with rfl | hc
      · exact absurd this h
      · exact absurd this (by omega)

theorem HasRootfs.unique {offset : Nat} {t t' : PartType} (h : HasRootfs a mtd offset t)
    (h' : HasRootfs a mtd offset t') : t = t' :=
  Except.ok.inj ((checkRootfsMagic_ok.mpr h).symm.trans (checkRootfsMagic_ok.mpr h'))

theorem First.le {start limit r : Nat} {t : PartType} (h : First a mtd start limit r t) :
    start ≤ r := by
  rcases h.1.2 with rfl | hc
  · exact Nat.le_refl _
  · exact Nat.le_of_lt hc.1

/-- a magic that can be read ends on the device -/
theorem HasRootfs.lt {offset : Nat} {t : PartType} (h : HasRootfs a mtd offset t) :
    offset < mtd.size := by
  have := mtd.inside offset 4 _ h
  omega

theorem First.unique {start limit r r' : Nat} {t t' : PartType}
    (h : First a mtd start limit r t) (h' : First a mtd start limit r' t') :
    r = r' ∧ t = t' := by
  rcases Nat.lt_trichotomy r r' with hlt | rfl | hlt
  · exact absurd h.2.1 (h'.2.2 r t hlt h.1)
  · exact ⟨rfl, h.2.1.unique h'.2.1⟩
  · exact absurd h'.2.1 (h.2.2 r' t' hlt h'.1)

/-- a file system among the candidates: one of them is the first -/
theorem exists_first {start limit : Nat} (h : ¬ NoRootfs a mtd start limit) :
    ∃ r t, First a mtd start limit r t := by
  simp only [NoRootfs, not_forall, not_not] at h
  obtain ⟨r, t, hc, ht⟩ := h
  induction r using Nat.strongRecOn generalizing t with
  | _ r ih =>
    by_cases hmin : ∃ r' t', r' < r ∧ Candidate mtd start limit r' ∧ HasRootfs a mtd r' t'
    · obtain ⟨r', t', hlt, hc', ht'⟩ := hmin
      exact ih r' hlt t' hc' ht'
    · exact ⟨r, t, hc, ht, fun r' t' hlt hc' ht' => hmin ⟨r', t', hlt, hc', ht'⟩⟩

theorem findRootfsFrom_of_ends {start limit : Nat} {res : Nat × Option PartType}
    (h : Ends (rootfsStep a mtd limit) start res) :
    ∃ n, ∀ fuel, n ≤ fuel → findRootfsFrom a mtd start limit fuel =
      some (res.2.elim (.error enodev) fun t => .ok (res.1, t)) := by
  obtain ⟨n, hn⟩ := h.eventually
  refine ⟨n, fun fuel hf => ?_⟩
  unfold findRootfsFrom
  rw [hn fuel hf]
  obtain ⟨r, _ | t⟩ := res <;> rfl

theorem findRootfsFrom_ends {start limit fuel : Nat} {res : Except Int (Nat × PartType)}
    (h : findRootfsFrom a mtd start limit fuel = some res) : ∃ out,
    Ends (rootfsStep a mtd limit) start out ∧
      res = out.2.elim (.error enodev) fun t => .ok (out.1, t) := by
  unfold findRootfsFrom at h
  obtain ⟨⟨r, o⟩, hr, rfl⟩ := Option.map_eq_some_iff.mp h
  refine ⟨(r, o), ⟨fuel, hr⟩, ?_⟩
  cases o <;> rfl

/-- what the search says, whenever it comes to an end -/
theorem findRootfsFrom_sound {start limit fuel : Nat} {res : Except Int (Nat × PartType)}
    (hl : mtd.ceil limit < a.M) (he : start < limit → Exact mtd start)
    (h : findRootfsFrom a mtd start limit fuel = some res) :
    (∃ r t, res = .ok (r, t) ∧ First a mtd start limit r t) ∨
      (res = .error enodev ∧ NoRootfs a mtd start limit) := by
  obtain ⟨⟨r, o⟩, hr, rfl⟩ := findRootfsFrom_ends h
  obtain ⟨res', hr', hf⟩ := rootfs_ends hl he
  obtain rfl := hr.unique hr'
  cases o with
  | some t => exact .inl ⟨r, t, rfl, hf⟩
  | none => exact .inr ⟨rfl, hf⟩

/-- what is found can be read below the limit -/
theorem findRootfsFrom_lt {start limit fuel r : Nat} {t : PartType}
    (h : findRootfsFrom a mtd start limit fuel = some (.ok (r, t))) :
    r < limit ∧ HasRootfs a mtd r t := by
  obtain ⟨⟨r', o⟩, hr, hres⟩ := findRootfsFrom_ends h
  obtain ⟨n, rfl, -, hstop⟩ := Scan.ends_iff.mp hr
  cases o with
  | none => cases hres
  | some t' =>
    cases hres
    exact ⟨of_decide_eq_true hstop.1, toOption_eq_some.mp hstop.2⟩

theorem findRootfsFrom_mono {start limit fuel fuel' : Nat} {res : Except Int (Nat × PartType)}
    (h : findRootfsFrom a mtd start limit fuel = some res) (hf : fuel ≤ fuel') :
    findRootfsFrom a mtd start limit fuel' = some res := by
  unfold findRootfsFrom at h ⊢
  obtain ⟨r, hr, rfl⟩ := Option.map_eq_some_iff.mp h
  rw [run_mono hr hf]
  rfl

theorem findRootfsFrom_ok_iff {start limit r : Nat} {t : PartType}
    (hl : mtd.ceil limit < a.M) (he : start < limit → Exact mtd start) :
    (∃ fuel, findRootfsFrom a mtd start limit fuel = some (.ok (r, t))) ↔
      First a mtd start limit r t := by
  constructor
  · rintro ⟨fuel, h⟩
    rcases findRootfsFrom_sound hl he h with ⟨r', t', h', hf⟩ | ⟨h', _⟩
    · cases h'
      exact hf
    · cases h'
  · intro h
    obtain ⟨⟨r', o⟩, hr, hf⟩ := rootfs_ends (a := a) hl he
    obtain ⟨n, hn⟩ := findRootfsFrom_of_ends hr
    cases o with
    | some t' =>
      obtain ⟨rfl, rfl⟩ := h.unique hf
      exact ⟨n, hn n (Nat.le_refl n)⟩
    | none => exact absurd h.2.1 (hf r t h.1)

/-- **The first root file system is found, in finitely many rounds.** -/
theorem findRootfsFrom_total (a : Arch) (mtd : Mtd) (start limit : Nat)
    (h : limit + mtd.erasesize < 2147483648) :
    ∃ res, (∃ n, ∀ fuel, n ≤ fuel → findRootfsFrom a mtd start limit fuel = some res) ∧
      ((∃ r t, res = .ok (r, t) ∧ First a mtd start limit r t) ∨
        (res = .error enodev ∧ (limit ≤ start ∨ NoRootfs a mtd start limit))) := by
  by_cases hs : limit ≤ start
  · have hout : Ends (rootfsStep a mtd limit) start (start, none) :=
      Ends.done (rootfsStep_out hs)
    exact ⟨_, findRootfsFrom_of_ends hout, .inr ⟨rfl, .inl hs⟩⟩
  · have hM := a.M_le
    have hc : mtd.ceil limit ≤ limit + mtd.erasesize - 1 := Nat.div_mul_le_self _ _
    have hl : mtd.ceil limit < a.M := by omega
    obtain ⟨⟨r, o⟩, hr, hf⟩ := rootfs_ends hl fun _ => .inl (by omega : start < 4294967296)
    refine ⟨_, findRootfsFrom_of_ends hr, ?_⟩
    cases o with
    | some t => exact .inl ⟨r, t, rfl, hf⟩
    | none => exact .inr ⟨rfl, .inr hf⟩

theorem squashfsAt8_size : 16 < 18446744073709551616 := by decide

theorem squashfsAt8_erase : 0 < 4 ∧ 4 < 4294967296 := by decide

/-- a squashfs in the third erase block -/
def squashfsAt8 : Mtd := Mtd.ofFn 16 4 (fun i => ([0x68, 0x73, 0x71, 0x73] : List UInt8).getD (i - 8) 0)
  squashfsAt8_size squashfsAt8_erase

theorem findRootfsFrom_squashfsAt8 :
    findRootfsFrom ⟨false, true⟩ squashfsAt8 2 16 4 = some (.ok (8, .squashfs)) ∧
      ∃ res, (∃ n, ∀ fuel, n ≤ fuel →
        findRootfsFrom ⟨false, true⟩ squashfsAt8 2 16 fuel = some res) ∧
      ((∃ r t, res = .ok (r, t) ∧ First ⟨false, true⟩ squashfsAt8 2 16 r t) ∨
        (res = .error enodev ∧ (16 ≤ 2 ∨ NoRootfs ⟨false, true⟩ squashfsAt8 2 16))) :=
  ⟨by decide +kernel, findRootfsFrom_total ⟨false, true⟩ squashfsAt8 2 16 (by decide)⟩

end Mtdsplit
