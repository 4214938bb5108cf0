import Firmware.Mtdsplit.Blocks

/-!
# mtdsplit: FIT

`mtdsplit_fit_parse` goes over the erase blocks, but it reads the header from the start of the
device each time.  So a device tree in the first block is found, and without one the loop ends
behind the device with the first bytes of the device for a header.

* `parseFit`           the splitter;
* `FitGood`, `FitOk`   what it is for: the partitions of the first image, an error without one;
* `Hits`, `Misses`     how the search for the root file system ends, by the offsets it visits;
* `parseFit_ok_iff`    exactly when the splitter does what it is for.
-/

set_option linter.unusedVariables false

namespace Mtdsplit
open Img Word Machine

/-! ## the splitter -/

def ofDtHeader : Nat := 0xd00dfeed
def fdtHeaderLen : Nat := 40

def totalsize (hdr : List UInt8) : Nat := be32 hdr 4

/-- the body of the search for the image; the state is `hdr` -/
def fitBlock (mtd : Mtd) (offset : Nat) (hdr : List UInt8) :
    List UInt8 ⊕ Except Int (List UInt8) :=
  match mtd.readAll 0 fdtHeaderLen with
  | .error e => .inr (.error e)
  | .ok hdr => if be32 hdr 0 ≠ ofDtHeader then .inl hdr else .inr (.ok hdr)

/-- the partitions, for an image at `offset` -/
def fitParts (a : Arch) (mtd : Mtd) (offset : Nat) (hdr : List UInt8) (fuel : Nat) :
    Option (Except Int Parts) :=
  let fitSize := totalsize hdr
  if fitSize = 0 then some (.error enodev)
  else
    (findRootfsFrom a mtd (a.size (offset + fitSize)) (a.size mtd.size) fuel).map fun
      | .error e => .error e
      | .ok (rootfsOffset, _) =>
        .ok ⟨⟨.kernel, offset, mtd.rounddownToEb fitSize + mtd.erasesize⟩,
          ⟨.rootfs, rootfsOffset, a.sub mtd.size rootfsOffset⟩, 0⟩

/-- the splitter behind its first loop -/
def fitRest (a : Arch) (mtd : Mtd) (r : (Nat × List UInt8) × Option (Except Int (List UInt8)))
    (fuel : Nat) : Option (Except Int Parts) :=
  match r.2 with
  | some (.error e) => some (.error e)
  | some (.ok hdr) => fitParts a mtd r.1.1 hdr fuel
  | none => fitParts a mtd r.1.1 r.1.2 fuel

/-- `.ok` is the return value 2 with the partitions; `stack` is `hdr` before the first read -/
def parseFit (a : Arch) (mtd : Mtd) (stack : List UInt8) (fuel : Nat) : Option (Except Int Parts) :=
  (run (blocks a mtd (fitBlock mtd)) fuel (0, stack)).bind fun r => fitRest a mtd r fuel

/-! ## what the splitter is for -/

/-- a device tree starts at `o` -/
def FdtAt (mtd : Mtd) (o : Nat) (hdr : List UInt8) : Prop :=
  mtd.readAll o fdtHeaderLen = .ok hdr ∧ be32 hdr 0 = ofDtHeader

/-- the first image on an erase-block boundary -/
def FirstFdt (mtd : Mtd) (o : Nat) (hdr : List UInt8) : Prop :=
  (mtd.erasesize ∣ o ∧ o < mtd.size) ∧ FdtAt mtd o hdr ∧
    ∀ o' hdr', mtd.erasesize ∣ o' → o' < o → ¬ FdtAt mtd o' hdr'

/-- all blocks before can be read -/
def Readable (mtd : Mtd) (o : Nat) : Prop :=
  ∀ o', mtd.erasesize ∣ o' → o' < o → ∃ hdr, mtd.readAll o' fdtHeaderLen = .ok hdr

def NoFdt (mtd : Mtd) : Prop :=
  ∀ o hdr, mtd.erasesize ∣ o → o < mtd.size → ¬ FdtAt mtd o hdr

/-- the kernel covers the first image, the first root file system behind it extends to the end
of the device, and the partitions do not overlap -/
def FitGood (a : Arch) (mtd : Mtd) (p : Parts) : Prop :=
  ∃ o hdr, FirstFdt mtd o hdr ∧ p.kernel.offset = o ∧ totalsize hdr ≤ p.kernel.size ∧
    (∃ t, First a mtd (o + totalsize hdr) mtd.size p.rootfs.offset t) ∧
    p.rootfs.stop = mtd.size ∧ p.kernel.Disjoint p.rootfs

/-- partitions are made for the first image, wherever it is, and without one it is an error -/
def FitOk (a : Arch) (mtd : Mtd) (stack : List UInt8) : Prop :=
  (∀ fuel p, parseFit a mtd stack fuel = some (.ok p) → FitGood a mtd p) ∧
  (∀ o hdr, FirstFdt mtd o hdr → Readable mtd o → totalsize hdr ≠ 0 →
    ¬ NoRootfs a mtd (o + totalsize hdr) mtd.size →
    ∃ fuel p, parseFit a mtd stack fuel = some (.ok p)) ∧
  (NoFdt mtd → ∃ fuel e, parseFit a mtd stack fuel = some (.error e))

/-! ## the loops -/

/-- the search from `start` on meets a root file system -/
def Hits (a : Arch) (mtd : Mtd) (start : Nat) : Prop :=
  ∃ n t, (∀ k, k < n → (nextEb a mtd)^[k] start < a.size mtd.size ∧
      ∀ t, ¬ HasRootfs a mtd ((nextEb a mtd)^[k] start) t) ∧
    (nextEb a mtd)^[n] start < a.size mtd.size ∧ HasRootfs a mtd ((nextEb a mtd)^[n] start) t

/-- the search from `start` on comes to its limit -/
def Misses (a : Arch) (mtd : Mtd) (start : Nat) : Prop :=
  ∃ n, (∀ k, k < n → (nextEb a mtd)^[k] start < a.size mtd.size ∧
      ∀ t, ¬ HasRootfs a mtd ((nextEb a mtd)^[k] start) t) ∧
    a.size mtd.size ≤ (nextEb a mtd)^[n] start

/-- the loop over the blocks ends with the offset `y` -/
def LoopEnd (a : Arch) (mtd : Mtd) (y : Nat) : Prop :=
  ∃ k, y = a.size (k * mtd.erasesize) ∧ mtd.size ≤ y ∧
    ∀ j, j < k → a.size (j * mtd.erasesize) < mtd.size

variable {a : Arch} {mtd : Mtd} {stack : List UInt8}

theorem skips_iff {limit n start : Nat} :
    Scan.Skips (fun offset => decide (offset < limit)) (nextEb a mtd)
      (fun offset => (checkRootfsMagic a mtd offset).toOption) n start ↔
    ∀ k, k < n → (nextEb a mtd)^[k] start < limit ∧
      ∀ t, ¬ HasRootfs a mtd ((nextEb a mtd)^[k] start) t := by
  unfold Scan.Skips
  simp only [decide_eq_true_eq, toOption_eq_none]

/-- the search ends at `y`, in the way `o` says -/
theorem rootfsStep_ends_iff {limit start y : Nat} {o : Option PartType} :
    Ends (rootfsStep a mtd limit) start (y, o) ↔ ∃ n, y = (nextEb a mtd)^[n] start ∧
      (∀ k, k < n → (nextEb a mtd)^[k] start < limit ∧
        ∀ t, ¬ HasRootfs a mtd ((nextEb a mtd)^[k] start) t) ∧
      o.elim (limit ≤ y) fun t => y < limit ∧ HasRootfs a mtd y t := by
  unfold rootfsStep
  rw [Scan.ends_iff]
  simp only [skips_iff]
  cases o with
  | none => simp only [Scan.Stops, decide_eq_false_iff_not, Nat.not_lt, Option.elim_none]
  | some t =>
    simp only [Scan.Stops, decide_eq_true_eq, toOption_eq_some, Option.elim_some]

theorem search_hits {start : Nat} :
    (∃ fuel rt, findRootfsFrom a mtd start (a.size mtd.size) fuel = some (.ok rt)) ↔
      Hits a mtd start := by
  constructor
  · rintro ⟨fuel, ⟨r, t⟩, h⟩
    obtain ⟨⟨r', o⟩, hr, hres⟩ := findRootfsFrom_ends h
    cases o with
    | none => cases hres
    | some t' =>
      obtain ⟨n, rfl, hskip, hstop⟩ := rootfsStep_ends_iff.mp hr
      exact ⟨n, t', hskip, hstop⟩
  · rintro ⟨n, t, hskip, hstop⟩
    have hends : Ends (rootfsStep a mtd (a.size mtd.size)) start
        ((nextEb a mtd)^[n] start, some t) := rootfsStep_ends_iff.mpr ⟨n, rfl, hskip, hstop⟩
    obtain ⟨fuel, hf⟩ := findRootfsFrom_of_ends hends
    exact ⟨fuel, _, hf fuel (Nat.le_refl _)⟩

theorem search_misses {start : Nat} :
    (∃ fuel e, findRootfsFrom a mtd start (a.size mtd.size) fuel = some (.error e)) ↔
      Misses a mtd start := by
  constructor
  · rintro ⟨fuel, e, h⟩
    obtain ⟨⟨r', o⟩, hr, hres⟩ := findRootfsFrom_ends h
    cases o with
    | some t => cases hres
    | none =>
      obtain ⟨n, rfl, hskip, hstop⟩ := rootfsStep_ends_iff.mp hr
      exact ⟨n, hskip, hstop⟩
  · rintro ⟨n, hskip, hle⟩
    have hends : Ends (rootfsStep a mtd (a.size mtd.size)) start
        ((nextEb a mtd)^[n] start, none) := rootfsStep_ends_iff.mpr ⟨n, rfl, hskip, hle⟩
    obtain ⟨fuel, hf⟩ := findRootfsFrom_of_ends hends
    exact ⟨fuel, _, hf fuel (Nat.le_refl _)⟩

theorem fitParts_mono {o n m : Nat} {hdr : List UInt8} {res : Except Int Parts}
    (h : fitParts a mtd o hdr n = some res) (hm : n ≤ m) : fitParts a mtd o hdr m = some res := by
  unfold fitParts at h ⊢
  by_cases hz : totalsize hdr = 0
  · simp only [if_pos hz] at h ⊢
    exact h
  · simp only [if_neg hz] at h ⊢
    obtain ⟨r, hr, rfl⟩ := Option.map_eq_some_iff.mp h
    rw [findRootfsFrom_mono hr hm]
    rfl

theorem fitParts_ok {o fuel : Nat} {hdr : List UInt8} {p : Parts}
    (h : fitParts a mtd o hdr fuel = some (.ok p)) : totalsize hdr ≠ 0 ∧ ∃ r t,
      findRootfsFrom a mtd (a.size (o + totalsize hdr)) (a.size mtd.size) fuel =
        some (.ok (r, t)) ∧
      p = ⟨⟨.kernel, o, mtd.rounddownToEb (totalsize hdr) + mtd.erasesize⟩,
        ⟨.rootfs, r, a.sub mtd.size r⟩, 0⟩ := by
  unfold fitParts at h
  by_cases hz : totalsize hdr = 0
  · simp only [if_pos hz] at h
    cases h
  · simp only [if_neg hz] at h
    obtain ⟨res, hr, hres⟩ := Option.map_eq_some_iff.mp h
    cases res with
    | error e => cases hres
    | ok rt =>
      cases hres
      exact ⟨hz, rt.1, rt.2, hr, rfl⟩

/-- the splitter goes on to make partitions just when the search meets a file system -/
theorem fitParts_hits {o : Nat} {hdr : List UInt8} (hz : totalsize hdr ≠ 0) :
    (∃ fuel p, fitParts a mtd o hdr fuel = some (.ok p)) ↔
      Hits a mtd (a.size (o + totalsize hdr)) := by
  rw [← search_hits]
  constructor
  · rintro ⟨fuel, p, h⟩
    obtain ⟨-, r, t, hr, -⟩ := fitParts_ok h
    exact ⟨fuel, _, hr⟩
  · rintro ⟨fuel, ⟨r, t⟩, h⟩
    refine ⟨fuel, ⟨⟨.kernel, o, mtd.rounddownToEb (totalsize hdr) + mtd.erasesize⟩,
      ⟨.rootfs, r, a.sub mtd.size r⟩, 0⟩, ?_⟩
    unfold fitParts
    simp only [if_neg hz, h]
    rfl

theorem fitParts_misses {o : Nat} {hdr : List UInt8} :
    (∃ fuel e, fitParts a mtd o hdr fuel = some (.error e)) ↔
      totalsize hdr = 0 ∨ Misses a mtd (a.size (o + totalsize hdr)) := by
  rw [← search_misses]
  unfold fitParts
  by_cases hz : totalsize hdr = 0
  · simp [hz]
  · simp only [hz, if_false, false_or]
    constructor
    · rintro ⟨fuel, e, h⟩
      obtain ⟨res, hr, hres⟩ := Option.map_eq_some_iff.mp h
      cases res with
      | error e' => exact ⟨fuel, e', hr⟩
      | ok rt => cases hres
    · rintro ⟨fuel, e, h⟩
      exact ⟨fuel, e, by rw [h]; rfl⟩

/-! ## the three ways through the blocks -/

theorem fitRest_mono {r : (Nat × List UInt8) × Option (Except Int (List UInt8))} {n m : Nat}
    {res : Except Int Parts} (h : fitRest a mtd r n = some res) (hm : n ≤ m) :
    fitRest a mtd r m = some res := by
  obtain ⟨⟨o, s⟩, _ | _ | hdr⟩ := r
  · exact fitParts_mono h hm
  · exact h
  · exact fitParts_mono h hm

theorem parseFit_of_ends {r : (Nat × List UInt8) × Option (Except Int (List UInt8))}
    {res : Except Int Parts} (h : Ends (blocks a mtd (fitBlock mtd)) (0, stack) r) :
    (∃ fuel, parseFit a mtd stack fuel = some res) ↔ ∃ fuel, fitRest a mtd r fuel = some res :=
  h.run_bind_iff fun _ _ hn hm => fitRest_mono hn hm

/-- the start of the device cannot be read: an error -/
theorem parseFit_unreadable {e : Int} (hr : mtd.readAll 0 fdtHeaderLen = .error e) :
    (∀ fuel p, parseFit a mtd stack fuel ≠ some (.ok p)) ∧
      ∃ fuel e, parseFit a mtd stack fuel = some (.error e) := by
  by_cases hs : 0 < mtd.size
  · have hb : fitBlock mtd 0 stack = .inr (.error e) := by
      unfold fitBlock
      rw [hr]
    have hends : Ends (blocks a mtd (fitBlock mtd)) (0, stack) ((0, stack), some (.error e)) :=
      Ends.done (blocks_break hs hb)
    refine ⟨fun fuel p hp => ?_, ?_⟩
    · obtain ⟨_, hrest⟩ := (parseFit_of_ends hends).mp ⟨fuel, hp⟩
      cases hrest
    · obtain ⟨fuel, hf⟩ := (parseFit_of_ends hends).mpr ⟨0, rfl⟩
      exact ⟨fuel, e, hf⟩
  · have h0 : mtd.size = 0 := by omega
    have hends : Ends (blocks a mtd (fitBlock mtd)) (0, stack) ((0, stack), none) :=
      Ends.done (blocks_end (Nat.le_of_eq h0))
    have hlim : a.size mtd.size = 0 := by
      rw [h0]
      exact Nat.zero_mod _
    refine ⟨fun fuel p hp => ?_, ?_⟩
    · obtain ⟨fuel, hp⟩ := (parseFit_of_ends hends).mp ⟨fuel, hp⟩
      obtain ⟨-, r, t, hr, -⟩ := fitParts_ok hp
      have := (findRootfsFrom_lt hr).1
      omega
    · have hmiss : totalsize stack = 0 ∨ Misses a mtd (a.size (0 + totalsize stack)) :=
        .inr ⟨0, fun k hk => absurd hk (by omega), by omega⟩
      obtain ⟨fuel, e', hf⟩ := fitParts_misses.mpr hmiss
      obtain ⟨fuel', hf'⟩ := (parseFit_of_ends hends).mpr ⟨fuel, hf⟩
      exact ⟨fuel', e', hf'⟩

/-- a readable start means a device that is not empty -/
theorem readAll_pos {n : Nat} {hdr : List UInt8} (hr : mtd.readAll 0 (n + 1) = .ok hdr) :
    0 < mtd.size := by
  have := mtd.inside 0 (n + 1) hdr (Mtd.readAll_ok.mp hr).1
  omega

/-- an image in the first block -/
theorem parseFit_front {hdr : List UInt8} {res : Except Int Parts} (h : FdtAt mtd 0 hdr) :
    (∃ fuel, parseFit a mtd stack fuel = some res) ↔
      ∃ fuel, fitParts a mtd 0 hdr fuel = some res := by
  have hb : fitBlock mtd 0 stack = .inr (.ok hdr) := by
    unfold fitBlock
    simp only [h.1, if_neg (not_not.mpr h.2)]
  exact parseFit_of_ends (Ends.done (blocks_break (readAll_pos h.1) hb))

/-- no image in the first block: the loop ends behind the device -/
theorem parseFit_behind {hdr : List UInt8} {res : Except Int Parts}
    (hr : mtd.readAll 0 fdtHeaderLen = .ok hdr) (hm : be32 hdr 0 ≠ ofDtHeader) :
    (∃ fuel, parseFit a mtd stack fuel = some res) ↔
      ∃ y, LoopEnd a mtd y ∧ ∃ fuel, fitParts a mtd y hdr fuel = some res := by
  have hb (o : Nat) (s : List UInt8) : fitBlock mtd o s = .inl hdr := by
    unfold fitBlock
    simp only [hr, if_pos hm]
  -- the state behind `k + 1` blocks
  have hstate (k : Nat) : (nextBlock a mtd (fitBlock mtd))^[k + 1] (0, stack) =
      (a.size ((k + 1) * mtd.erasesize), hdr) := by
    refine Prod.ext (nextBlock_iterate stack (k + 1)) ?_
    rw [Function.iterate_succ_apply']
    show (fitBlock mtd _ _).elim id (fun _ => _) = hdr
    rw [hb]
    rfl
  have hgo (s : Nat × List UInt8) : (fitBlock mtd s.1 s.2).getRight? = none := by
    rw [hb]
    rfl
  have hends (y : Nat) (h : LoopEnd a mtd y) :
      Ends (blocks a mtd (fitBlock mtd)) (0, stack) ((y, hdr), none) := by
    obtain ⟨k, rfl, hle, hlt⟩ := h
    have hpos := readAll_pos hr
    obtain ⟨k, rfl⟩ : ∃ j, k = j + 1 := by
      refine ⟨k - 1, (Nat.succ_pred ?_).symm⟩
      rintro rfl
      rw [Nat.zero_mul, show a.size 0 = 0 from Nat.zero_mod _] at hle
      omega
    refine Scan.ends_iff.mpr ⟨k + 1, (hstate k).symm, fun j hj => ⟨decide_eq_true ?_, hgo _⟩,
      decide_eq_false (Nat.not_lt.mpr hle)⟩
    rw [nextBlock_iterate]
    exact hlt j hj
  constructor
  · rintro ⟨fuel, h⟩
    have hrun := h
    unfold parseFit at hrun
    obtain ⟨⟨s, o⟩, hs, -⟩ := Option.bind_eq_some_iff.mp hrun
    obtain ⟨n, rfl, hskip, hstop⟩ := Scan.ends_iff.mp ⟨fuel, hs⟩
    cases o with
    | some b => exact absurd ((hgo _).symm.trans hstop.2) (by simp)
    | none =>
      have hle := of_decide_eq_false hstop
      have hlt (j : Nat) (hj : j < n) := of_decide_eq_true (hskip j hj).1
      simp only [nextBlock_iterate] at hle hlt
      have hend : LoopEnd a mtd (a.size (n * mtd.erasesize)) :=
        ⟨n, rfl, Nat.not_lt.mp hle, hlt⟩
      exact ⟨_, hend, (parseFit_of_ends (hends _ hend)).mp ⟨fuel, h⟩⟩
  · rintro ⟨y, hy, h⟩
    exact (parseFit_of_ends (hends y hy)).mpr h

/-! ## when the splitter does what it is for -/

/-- the search from `start` on sees what is on the device, and nothing lies at `start` itself -/
def SearchesWell (a : Arch) (mtd : Mtd) (start : Nat) : Prop :=
  (¬ NoRootfs a mtd start mtd.size → mtd.size < a.M ∧ ∀ t, ¬ HasRootfs a mtd start t) ∧
    (NoRootfs a mtd start mtd.size → ¬ Hits a mtd start)

/-- there is no image that could be found, the header left behind leads to nothing, and the
loops come to an end if there is no image -/
def NothingBehind (a : Arch) (mtd : Mtd) (hdr : List UInt8) : Prop :=
  (∀ o hdr', FirstFdt mtd o hdr' → Readable mtd o → totalsize hdr' ≠ 0 →
    NoRootfs a mtd (o + totalsize hdr') mtd.size) ∧
  (∀ y, LoopEnd a mtd y → totalsize hdr ≠ 0 → ¬ Hits a mtd (a.size (y + totalsize hdr))) ∧
  (NoFdt mtd → ∃ y, LoopEnd a mtd y ∧
    (totalsize hdr = 0 ∨ Misses a mtd (a.size (y + totalsize hdr))))

/-- by the first bytes of the device: an image without a size, an image that is searched behind
well, or no image and nothing to find -/
def FitCond (a : Arch) (mtd : Mtd) : Prop :=
  ∀ hdr, mtd.readAll 0 fdtHeaderLen = .ok hdr →
    if be32 hdr 0 = ofDtHeader then totalsize hdr = 0 ∨ SearchesWell a mtd (totalsize hdr)
    else NothingBehind a mtd hdr

theorem totalsize_exact (mtd : Mtd) (hdr : List UInt8) : Exact mtd (totalsize hdr) :=
  .inl (be32_lt hdr 4)

theorem size_totalsize (a : Arch) (hdr : List UInt8) :
    a.size (0 + totalsize hdr) = totalsize hdr := by
  rw [Nat.zero_add]
  exact Arch.size_of_lt (Nat.lt_of_lt_of_le (be32_lt hdr 4) a.M_le)

theorem firstFdt_zero {hdr : List UInt8} (h : FdtAt mtd 0 hdr) : FirstFdt mtd 0 hdr :=
  ⟨⟨Nat.dvd_zero _, readAll_pos h.1⟩, h, fun o' _ _ hlt => absurd hlt (by omega)⟩

theorem FirstFdt.eq_zero {o : Nat} {hdr hdr' : List UInt8} (h : FirstFdt mtd o hdr)
    (h0 : FdtAt mtd 0 hdr') : o = 0 ∧ hdr = hdr' := by
  have ho : o = 0 := by
    by_contra ho
    exact h.2.2 0 hdr' (Nat.dvd_zero _) (by omega) h0
  subst ho
  exact ⟨rfl, Except.ok.inj (h.2.1.1.symm.trans h0.1)⟩

/-- the partitions behind an image in the first block reach the end only on a device that
`size_t` can measure -/
theorem size_lt_of_rest {r : Nat} (hr : r < a.size mtd.size)
    (hrest : r + a.sub mtd.size r = mtd.size) : mtd.size < a.M := by
  have hM := a.M_le
  have hsub : a.sub mtd.size r < a.M := Nat.mod_lt _ (by omega)
  by_contra hge
  have hdiv := Nat.div_add_mod mtd.size a.M
  have hq : a.M * 1 ≤ a.M * (mtd.size / a.M) :=
    Nat.mul_le_mul_left _ (Nat.div_pos (Nat.not_lt.mp hge) (by omega))
  unfold Arch.size at hr
  omega

/-- the kernel ends at the next boundary behind the image -/
theorem fit_kernel_stop (hdr : List UInt8) :
    mtd.rounddownToEb (totalsize hdr) + mtd.erasesize =
      (totalsize hdr / mtd.erasesize + 1) * mtd.erasesize := by
  rw [Mtd.rounddownToEb_eq (totalsize_exact mtd hdr), Nat.add_mul, Nat.one_mul]

theorem fitGood_front {hdr : List UInt8} {r : Nat} {t : PartType} (h : FdtAt mtd 0 hdr)
    (hs : mtd.size < a.M) (hf : First a mtd (totalsize hdr) mtd.size r t)
    (hno : ∀ t, ¬ HasRootfs a mtd (totalsize hdr) t) :
    FitGood a mtd ⟨⟨.kernel, 0, mtd.rounddownToEb (totalsize hdr) + mtd.erasesize⟩,
      ⟨.rootfs, r, a.sub mtd.size r⟩, 0⟩ := by
  have hlt : r < mtd.size := hf.1.1
  have hcover : totalsize hdr < mtd.rounddownToEb (totalsize hdr) + mtd.erasesize := by
    rw [fit_kernel_stop]
    exact mtd.lt_next _
  have hstop : r + a.sub mtd.size r = mtd.size := by
    rw [Arch.sub_of_le (Nat.le_of_lt hlt) hs]
    omega
  have hafter : mtd.rounddownToEb (totalsize hdr) + mtd.erasesize ≤ r := by
    rw [fit_kernel_stop]
    rcases hf.1.2 with rfl | ⟨hr, k, rfl⟩
    · exact absurd hf.2.1 (hno t)
    · have hk : totalsize hdr / mtd.erasesize < k :=
        (Nat.div_lt_iff_lt_mul mtd.erase_pos).mpr (by rwa [Nat.mul_comm])
      rw [Nat.mul_comm mtd.erasesize k]
      exact Nat.mul_le_mul_right _ hk
  refine ⟨0, hdr, firstFdt_zero h, rfl, Nat.le_of_lt hcover, ⟨t, ?_⟩, hstop, .inl ?_⟩
  · rw [Nat.zero_add]
    exact hf
  · show 0 + _ ≤ r
    rw [Nat.zero_add]
    exact hafter

theorem fitOk_front_iff {hdr : List UInt8} (h : FdtAt mtd 0 hdr) (hz : totalsize hdr ≠ 0) :
    FitOk a mtd stack ↔ SearchesWell a mtd (totalsize hdr) := by
  have hhits : (∃ fuel p, parseFit a mtd stack fuel = some (.ok p)) ↔
      Hits a mtd (totalsize hdr) := by
    rw [← size_totalsize a hdr, ← fitParts_hits hz]
    constructor
    · rintro ⟨fuel, p, hp⟩
      obtain ⟨fuel', hp'⟩ := (parseFit_front h).mp ⟨fuel, hp⟩
      exact ⟨fuel', p, hp'⟩
    · rintro ⟨fuel, p, hp⟩
      obtain ⟨fuel', hp'⟩ : ∃ fuel, parseFit a mtd stack fuel = some (.ok p) :=
        (parseFit_front h).mpr ⟨fuel, hp⟩
      exact ⟨fuel', p, hp'⟩
  have hparts {fuel : Nat} {p : Parts} (hp : parseFit a mtd stack fuel = some (.ok p)) :
      ∃ fuel' r t, findRootfsFrom a mtd (totalsize hdr) (a.size mtd.size) fuel' =
          some (.ok (r, t)) ∧
        p = ⟨⟨.kernel, 0, mtd.rounddownToEb (totalsize hdr) + mtd.erasesize⟩,
          ⟨.rootfs, r, a.sub mtd.size r⟩, 0⟩ := by
    obtain ⟨fuel', hp'⟩ := (parseFit_front h).mp ⟨fuel, hp⟩
    obtain ⟨-, r, t, hr, rfl⟩ := fitParts_ok hp'
    rw [size_totalsize] at hr
    exact ⟨fuel', r, t, hr, rfl⟩
  constructor
  · rintro ⟨hsafe, hfind, -⟩
    refine ⟨fun hex => ?_, fun hno hhit => ?_⟩
    · obtain ⟨fuel, p, hp⟩ := hfind 0 hdr (firstFdt_zero h)
        (fun o' _ hlt => absurd hlt (by omega)) hz (by rwa [Nat.zero_add])
      obtain ⟨o, hdr', hfirst, -, -, ⟨t', hf⟩, hstop, hdis⟩ := hsafe fuel p hp
      obtain ⟨rfl, rfl⟩ := hfirst.eq_zero h
      obtain ⟨fuel', r, t, hr, rfl⟩ := hparts hp
      rw [Nat.zero_add] at hf
      have hlt := (findRootfsFrom_lt hr).1
      refine ⟨size_lt_of_rest hlt hstop, fun t'' ht'' => ?_⟩
      -- a file system right behind the image is inside the kernel partition
      have hle : r ≤ totalsize hdr' := by
        by_contra hgt
        exact hf.2.2 _ t'' (by show totalsize hdr' < r; omega) ⟨ht''.lt, .inl rfl⟩ ht''
      have hover := mtd.lt_next (totalsize hdr')
      rw [← fit_kernel_stop] at hover
      have hstop' : r + a.sub mtd.size r = mtd.size := hstop
      have hr' : r < mtd.size := hf.1.1
      have hdis' : 0 + (mtd.rounddownToEb (totalsize hdr') + mtd.erasesize) ≤ r ∨
        r + a.sub mtd.size r ≤ 0 := hdis
      omega
    · obtain ⟨fuel, p, hp⟩ := hhits.mpr hhit
      obtain ⟨o, hdr', hfirst, -, -, ⟨t', hf⟩, -⟩ := hsafe fuel p hp
      obtain ⟨rfl, rfl⟩ := hfirst.eq_zero h
      rw [Nat.zero_add] at hf
      exact hno _ t' hf.1 hf.2.1
  · rintro ⟨hsees, hnone⟩
    -- with a file system behind the image, the search finds the first one
    have hfound (hex : ¬ NoRootfs a mtd (totalsize hdr) mtd.size) : ∃ r t,
        First a mtd (totalsize hdr) mtd.size r t ∧
        Ends (rootfsStep a mtd (a.size mtd.size)) (totalsize hdr) (r, some t) := by
      obtain ⟨r, t, hf⟩ := exists_first hex
      have hs := (hsees hex).1
      refine ⟨r, t, hf, ?_⟩
      rw [Arch.size_of_lt hs]
      exact hf.ends (Nat.le_of_lt hs) (totalsize_exact mtd hdr)
    refine ⟨fun fuel p hp => ?_, fun o hdr' hfirst _ _ hex => ?_, fun hno => ?_⟩
    · have hex : ¬ NoRootfs a mtd (totalsize hdr) mtd.size := fun hno =>
        hnone hno (hhits.mp ⟨fuel, p, hp⟩)
      obtain ⟨r, t, hf, hends⟩ := hfound hex
      obtain ⟨fuel', r', t', hr, rfl⟩ := hparts hp
      obtain ⟨⟨r'', o⟩, hr', hres⟩ := findRootfsFrom_ends hr
      obtain ⟨rfl, rfl⟩ := Prod.mk.inj (hr'.unique hends)
      cases hres
      exact fitGood_front h (hsees hex).1 hf (hsees hex).2
    · obtain ⟨rfl, rfl⟩ := hfirst.eq_zero h
      rw [Nat.zero_add] at hex
      obtain ⟨r, t, hf, hends⟩ := hfound hex
      obtain ⟨fuel, hfuel⟩ := findRootfsFrom_of_ends hends
      exact hhits.mpr (search_hits.mp ⟨fuel, _, hfuel fuel (Nat.le_refl _)⟩)
    · exact absurd h (hno 0 hdr (Nat.dvd_zero _) (readAll_pos h.1))

theorem fitOk_front_zero {hdr : List UInt8} (h : FdtAt mtd 0 hdr) (hz : totalsize hdr = 0) :
    FitOk a mtd stack := by
  refine ⟨fun fuel p hp => ?_, fun o hdr' hfirst _ hz' _ => ?_, fun hno => ?_⟩
  · obtain ⟨fuel', hp'⟩ := (parseFit_front h).mp ⟨fuel, hp⟩
    exact absurd hz (fitParts_ok hp').1
  · obtain ⟨-, rfl⟩ := hfirst.eq_zero h
    exact absurd hz hz'
  · exact absurd h (hno 0 hdr (Nat.dvd_zero _) (readAll_pos h.1))

theorem fitOk_behind_iff {hdr : List UInt8} (hr : mtd.readAll 0 fdtHeaderLen = .ok hdr)
    (hm : be32 hdr 0 ≠ ofDtHeader) : FitOk a mtd stack ↔ NothingBehind a mtd hdr := by
  -- the kernel partition would start behind the device
  have hbad {fuel : Nat} {p : Parts} (hp : parseFit a mtd stack fuel = some (.ok p)) :
      ¬ FitGood a mtd p := by
    obtain ⟨y, ⟨-, -, hy, -⟩, fuel', hp'⟩ := (parseFit_behind hr hm).mp ⟨fuel, hp⟩
    obtain ⟨-, r, t, -, rfl⟩ := fitParts_ok hp'
    rintro ⟨o, hdr', ⟨⟨-, ho⟩, -⟩, hk, -⟩
    have hk' : y = o := hk
    omega
  constructor
  · rintro ⟨hsafe, hfind, herr⟩
    refine ⟨fun o hdr' hfirst hread hz => ?_, fun y hy hz hhit => ?_, fun hno => ?_⟩
    · by_contra hex
      obtain ⟨fuel, p, hp⟩ := hfind o hdr' hfirst hread hz hex
      exact hbad hp (hsafe fuel p hp)
    · obtain ⟨fuel, p, hp⟩ := (fitParts_hits hz).mpr hhit
      obtain ⟨fuel', hp'⟩ : ∃ fuel, parseFit a mtd stack fuel = some (.ok p) :=
        (parseFit_behind hr hm).mpr ⟨y, hy, fuel, hp⟩
      exact hbad hp' (hsafe fuel' p hp')
    · obtain ⟨fuel, e, he⟩ := herr hno
      obtain ⟨y, hy, fuel', he'⟩ := (parseFit_behind hr hm).mp ⟨fuel, he⟩
      exact ⟨y, hy, fitParts_misses.mp ⟨fuel', e, he'⟩⟩
  · rintro ⟨hlost, hnone, herr⟩
    refine ⟨fun fuel p hp => ?_, fun o hdr' hfirst hread hz hex => ?_, fun hno => ?_⟩
    · obtain ⟨y, hy, fuel', hp'⟩ := (parseFit_behind hr hm).mp ⟨fuel, hp⟩
      have hz := (fitParts_ok hp').1
      exact absurd ((fitParts_hits hz).mp ⟨fuel', p, hp'⟩) (hnone y hy hz)
    · exact absurd (hlost o hdr' hfirst hread hz) hex
    · obtain ⟨y, hy, hmiss⟩ := herr hno
      obtain ⟨fuel, e, he⟩ := fitParts_misses.mpr hmiss
      obtain ⟨fuel', he'⟩ : ∃ fuel, parseFit a mtd stack fuel = some (.error e) :=
        (parseFit_behind hr hm).mpr ⟨y, hy, fuel, he⟩
      exact ⟨fuel', e, he'⟩

/-- **The FIT splitter** does what it is for just under `FitCond`. -/
theorem parseFit_ok_iff (a : Arch) (mtd : Mtd) (stack : List UInt8) :
    FitOk a mtd stack ↔ FitCond a mtd := by
  unfold FitCond
  cases hr : mtd.readAll 0 fdtHeaderLen with
  | error e =>
    obtain ⟨hnone, herr⟩ : (∀ fuel p, parseFit a mtd stack fuel ≠ some (.ok p)) ∧
      ∃ fuel e, parseFit a mtd stack fuel = some (.error e) := parseFit_unreadable hr
    constructor
    · intro _ hdr h
      cases h
    · refine fun _ => ⟨fun fuel p hp => absurd hp (hnone fuel p),
        fun o hdr hfirst hread _ _ => ?_, fun _ => herr⟩
      -- an image behind a block that cannot be read
      have h0 : ∃ hdr, mtd.readAll 0 fdtHeaderLen = .ok hdr := by
        by_cases ho : o = 0
        · exact ⟨hdr, ho ▸ hfirst.2.1.1⟩
        · exact hread 0 (Nat.dvd_zero _) (by omega)
      obtain ⟨hdr', hr'⟩ := h0
      rw [hr] at hr'
      cases hr'
  | ok hdr =>
    have hcond : FitOk a mtd stack ↔ if be32 hdr 0 = ofDtHeader then
        totalsize hdr = 0 ∨ SearchesWell a mtd (totalsize hdr) else NothingBehind a mtd hdr := by
      by_cases hm : be32 hdr 0 = ofDtHeader
      · rw [if_pos hm]
        by_cases hz : totalsize hdr = 0
        · exact ⟨fun _ => .inl hz, fun _ => fitOk_front_zero ⟨hr, hm⟩ hz⟩
        · rw [fitOk_front_iff ⟨hr, hm⟩ hz]
          exact ⟨.inr, fun h => h.resolve_left hz⟩
      · rw [if_neg hm]
        exact fitOk_behind_iff hr hm
    rw [hcond]
    constructor
    · intro h hdr' hr'
      cases hr'
      exact h
    · intro h
      exact h hdr rfl

/-- the header of a device tree of so many bytes -/
def fdtHead (size : UInt32) : List UInt8 :=
  put32 true 0xd00dfeed ++ put32 true size ++ List.replicate 32 0

/-- a root file system right behind the image lies in the kernel partition, and an image in the
second block is not found -/
theorem parseFit_overlap_and_lost :
    (parseFit ⟨false, true⟩ (twoBlocks (fdtHead 128) hsqs) [] 3 =
        some (.ok ⟨⟨.kernel, 0, 256⟩, ⟨.rootfs, 128, 128⟩, 0⟩) ∧
      ¬ FitGood ⟨false, true⟩ (twoBlocks (fdtHead 128) hsqs)
        ⟨⟨.kernel, 0, 256⟩, ⟨.rootfs, 128, 128⟩, 0⟩) ∧
    (FdtAt (twoBlocks [] (fdtHead 40 ++ hsqs)) 128 (fdtHead 40) ∧
      HasRootfs ⟨false, true⟩ (twoBlocks [] (fdtHead 40 ++ hsqs)) 168 .squashfs ∧
      parseFit ⟨false, true⟩ (twoBlocks [] (fdtHead 40 ++ hsqs)) [] 3 = some (.error enodev)) :=
  ⟨⟨by decide +kernel, fun ⟨_, _, _, _, _, _, _, h⟩ => absurd h (by decide +kernel)⟩,
    ⟨by decide +kernel, by decide +kernel⟩, by decide +kernel, by decide +kernel⟩

end Mtdsplit
