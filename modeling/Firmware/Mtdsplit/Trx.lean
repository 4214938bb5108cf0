import Firmware.Mtdsplit.Blocks

/-!
# mtdsplit: TRX

`mtdsplit_parse_trx` looks for a TRX header at the erase-block boundaries and takes the kernel
and the root file system from the first two offsets in it.  Only the length of the image is
compared with the device; the offsets are believed.

* `parseTrx`             the splitter;
* `TrxHeader`            a header that can be read at an offset;
* `parseTrx_believes`    the partitions are the ones the first header taken describes, and they
                         are good just when its offsets are.
-/

set_option linter.unusedVariables false

namespace Mtdsplit
open Img Word Machine

def trxMagic : Nat := 0x30524448
def trxHeaderLen : Nat := 32

/-! ## the splitter -/

def readTrxHeader (mtd : Mtd) (offset : Nat) : Except Int (List UInt8) :=
  mtd.readAll offset trxHeaderLen

/-- `hdr.offset[i]`, as the machine reads it -/
def trxOffset (a : Arch) (hdr : List UInt8) (i : Nat) : Nat := a.cpu32 hdr (16 + 4 * i)

/-- the body of the search for the image; the state is `hdr` and `trx_size` -/
def trxBlock (a : Arch) (mtd : Mtd) (offset : Nat) (s : List UInt8 × Nat) :
    (List UInt8 × Nat) ⊕ (List UInt8 × Nat) :=
  match readTrxHeader mtd offset with
  | .error _ => .inl (s.1, 0)
  | .ok hdr =>
    if le32 hdr 0 ≠ trxMagic then .inl (hdr, 0)
    else
      let trxSize := a.size (le32 hdr 4)
      if a.size (offset + trxSize) > mtd.size then .inl (hdr, trxSize) else .inr (hdr, trxSize)

/-- the partitions of a header found at `offset` -/
def trxParts (a : Arch) (mtd : Mtd) (offset : Nat) (hdr : List UInt8) : Parts :=
  let trxOfs := a.size (offset + trxOffset a hdr 0)
  let rootfsOfs := a.size (offset + trxOffset a hdr 1)
  ⟨⟨.kernel, trxOfs, a.sub rootfsOfs trxOfs⟩, ⟨.rootfs, rootfsOfs, a.sub mtd.size rootfsOfs⟩, 0⟩

/-- `.ok` is the return value 2 with the partitions; `stack` is `hdr` before the first read -/
def parseTrx (a : Arch) (mtd : Mtd) (stack : List UInt8) (fuel : Nat) : Option (Except Int Parts) :=
  (run (blocks a mtd (trxBlock a mtd)) fuel (0, (stack, 0))).map fun r =>
    let offset := r.1.1
    let (hdr, trxSize) := r.2.getD r.1.2
    let p := trxParts a mtd offset hdr
    if trxSize = 0 then .error enodev
    else if p.rootfs.size = 0 then .error enodev
    else .ok p

/-! ## headers on the device -/

/-- a TRX header can be read at `offset` -/
def TrxHeader (mtd : Mtd) (offset : Nat) (hdr : List UInt8) : Prop :=
  readTrxHeader mtd offset = .ok hdr ∧ le32 hdr 0 = trxMagic

/-- the loop takes the header at `offset` -/
def TrxAccepted (a : Arch) (mtd : Mtd) (offset : Nat) (hdr : List UInt8) : Prop :=
  TrxHeader mtd offset hdr ∧ a.size (offset + le32 hdr 4) ≤ mtd.size

/-- the first boundary a `size_t` can point to whose header is taken -/
def FirstTrx (a : Arch) (mtd : Mtd) (offset : Nat) (hdr : List UInt8) : Prop :=
  (mtd.erasesize ∣ offset ∧ offset < mtd.size ∧ offset < a.M) ∧ TrxAccepted a mtd offset hdr ∧
    ∀ o hdr', mtd.erasesize ∣ o → o < offset → ¬ TrxAccepted a mtd o hdr'

variable {a : Arch} {mtd : Mtd}

theorem size_le32 (a : Arch) (hdr : List UInt8) (off : Nat) :
    a.size (le32 hdr off) = le32 hdr off :=
  Arch.size_of_lt (Nat.lt_of_lt_of_le (le32_lt hdr off) a.M_le)

theorem trxBlock_hit {o : Nat} {hdr : List UInt8} {s : List UInt8 × Nat}
    (h : TrxAccepted a mtd o hdr) : trxBlock a mtd o s = .inr (hdr, le32 hdr 4) := by
  obtain ⟨⟨hr, hm⟩, hle⟩ := h
  unfold trxBlock
  simp only [hr, size_le32]
  rw [if_neg (not_not.mpr hm), if_neg (Nat.not_lt.mpr hle)]

theorem trxBlock_go {o : Nat} (h : ∀ hdr, ¬ TrxAccepted a mtd o hdr) (s : List UInt8 × Nat) :
    ∃ s', trxBlock a mtd o s = .inl s' := by
  unfold trxBlock
  cases hr : readTrxHeader mtd o with
  | error e => exact ⟨_, rfl⟩
  | ok hdr =>
    simp only [size_le32]
    by_cases hm : le32 hdr 0 = trxMagic
    · rw [if_neg (not_not.mpr hm), if_pos]
      · exact ⟨_, rfl⟩
      · exact Nat.lt_of_not_le fun hle => h hdr ⟨⟨hr, hm⟩, hle⟩
    · rw [if_pos hm]
      exact ⟨_, rfl⟩

/-- a length left in `trx_size` comes from a header -/
theorem trxBlock_size {o : Nat} {s s' : List UInt8 × Nat}
    (h : trxBlock a mtd o s = .inl s' ∨ trxBlock a mtd o s = .inr s') (hs : s'.2 ≠ 0) :
    TrxHeader mtd o s'.1 := by
  unfold trxBlock at h
  cases hr : readTrxHeader mtd o with
  | error e =>
    rw [hr] at h
    rcases h with h | h <;> cases h
    exact absurd rfl hs
  | ok hdr =>
    simp only [hr] at h
    by_cases hm : le32 hdr 0 = trxMagic
    · rw [if_neg (not_not.mpr hm)] at h
      split at h <;> rcases h with h | h <;> cases h <;> exact ⟨hr, hm⟩
    · rw [if_pos hm] at h
      rcases h with h | h <;> cases h
      exact absurd rfl hs

/-! ## the splitter and the headers -/

/-- the offsets the loop comes to -/
def Visited (a : Arch) (mtd : Mtd) (o : Nat) : Prop := ∃ k, o = a.size (k * mtd.erasesize)

theorem Visited.next {o : Nat} (h : Visited a mtd o) :
    Visited a mtd (a.size (o + mtd.erasesize)) := by
  obtain ⟨k, rfl⟩ := h
  refine ⟨k + 1, ?_⟩
  rw [Nat.succ_mul]
  exact Nat.mod_add_mod _ _ _

/-- partitions are made for a header only -/
theorem parseTrx_header {stack : List UInt8} {fuel : Nat} {p : Parts}
    (h : parseTrx a mtd stack fuel = some (.ok p)) :
    ∃ o hdr, Visited a mtd o ∧ o < mtd.size ∧ TrxHeader mtd o hdr := by
  unfold parseTrx at h
  obtain ⟨⟨⟨o, s⟩, r⟩, hr, hp⟩ := Option.map_eq_some_iff.mp h
  have hsize : (r.getD s).2 ≠ 0 := by
    intro hz
    simp only [hz, if_true] at hp
    cases hp
  -- a length that is not 0 was read from a header
  let P (o : Nat) (s : List UInt8 × Nat) : Prop := Visited a mtd o ∧
    (s.2 ≠ 0 → ∃ o hdr, Visited a mtd o ∧ o < mtd.size ∧ TrxHeader mtd o hdr)
  have h0 : Visited a mtd 0 := ⟨0, by rw [Nat.zero_mul]; exact (Nat.zero_mod _).symm⟩
  have key := blocks_invariant (P := P) (Q := fun x => (x.2.getD x.1.2).2 ≠ 0 →
      ∃ o hdr, Visited a mtd o ∧ o < mtd.size ∧ TrxHeader mtd o hdr)
    (fun o s s' hs ho hb => ⟨hs.1.next, fun hz => ⟨o, s'.1, hs.1, ho, trxBlock_size (.inl hb) hz⟩⟩)
    (fun o s b hs ho hb hz => ⟨o, b.1, hs.1, ho, trxBlock_size (.inr hb) hz⟩)
    (fun o s hs _ => hs.2) ⟨fuel, hr⟩ ⟨h0, fun h => absurd rfl h⟩
  exact key hsize

/-- for the first header taken, the splitter makes its partitions -/
theorem parseTrx_first {o : Nat} {hdr stack : List UInt8} {p : Parts} (h : FirstTrx a mtd o hdr) :
    (∃ fuel, parseTrx a mtd stack fuel = some (.ok p)) ↔
      le32 hdr 4 ≠ 0 ∧ (trxParts a mtd o hdr).rootfs.size ≠ 0 ∧ p = trxParts a mtd o hdr := by
  obtain ⟨⟨hd, ho, hM⟩, hacc, hmin⟩ := h
  obtain ⟨s, hs⟩ := blocks_hit (stack, 0) hd ho hM
    (fun o' hd' hlt => trxBlock_go fun hdr' => hmin o' hdr' hd' hlt) fun s => trxBlock_hit hacc
  have hparts (fuel : Nat) (r) (hr : run (blocks a mtd (trxBlock a mtd)) fuel (0, (stack, 0)) =
      some r) : parseTrx a mtd stack fuel = some
        (if le32 hdr 4 = 0 then .error enodev
        else if (trxParts a mtd o hdr).rootfs.size = 0 then .error enodev
        else .ok (trxParts a mtd o hdr)) := by
    obtain rfl := hs.unique ⟨fuel, hr⟩
    unfold parseTrx
    rw [hr]
    rfl
  constructor
  · rintro ⟨fuel, h⟩
    have hrun := h
    unfold parseTrx at hrun
    obtain ⟨r, hr, -⟩ := Option.map_eq_some_iff.mp hrun
    rw [hparts fuel r hr] at h
    split at h
    · cases h
    split at h
    · cases h
    · next hz hz' =>
      cases h
      exact ⟨hz, hz', rfl⟩
  · rintro ⟨hz, hz', rfl⟩
    obtain ⟨fuel, hr⟩ := hs
    exact ⟨fuel, by rw [hparts fuel _ hr, if_neg hz, if_neg hz']⟩

/-! ## which headers can be believed -/

/-- the partitions are those of the header at `o`, and they lie on the device -/
def TrxGood (a : Arch) (mtd : Mtd) (o : Nat) (hdr : List UInt8) (p : Parts) : Prop :=
  o + le32 hdr 4 ≤ mtd.size ∧
  (p.kernel.offset = o + trxOffset a hdr 0 ∧ p.kernel.stop = o + trxOffset a hdr 1) ∧
  (p.rootfs.offset = o + trxOffset a hdr 1 ∧ p.rootfs.stop = mtd.size) ∧ p.Inside mtd

/-- a header that describes an image on the device -/
def TrxSound (a : Arch) (mtd : Mtd) (o : Nat) (hdr : List UInt8) : Prop :=
  o + le32 hdr 4 ≤ mtd.size ∧ trxOffset a hdr 0 < trxOffset a hdr 1 ∧
    o + trxOffset a hdr 1 < mtd.size ∧ o + trxOffset a hdr 1 < a.M ∧
    mtd.size - (o + trxOffset a hdr 1) < a.M

theorem Arch.sub_lt (a : Arch) (x y : Nat) : a.sub x y < a.M :=
  Nat.mod_lt _ (by have := a.M_le; omega)

/-- a difference that reaches across the multiples of `M` -/
theorem Arch.sub_eq {x y d : Nat} (hd : d < a.M) (h : x = y + d) : a.sub x y = d := by
  have hM := a.M_le
  have hy : y = a.M * (y / a.M) + y % a.M := (Nat.div_add_mod _ _).symm
  have hlt : y % a.M < a.M := Nat.mod_lt _ (by omega)
  unfold Arch.sub
  rw [show x + (a.M - y % a.M) = d + a.M * (y / a.M + 1) by rw [Nat.mul_succ]; omega,
    Nat.add_mul_mod_self_left, Nat.mod_eq_of_lt hd]

theorem trxGood_iff {o : Nat} {hdr : List UInt8} :
    TrxGood a mtd o hdr (trxParts a mtd o hdr) ↔ TrxSound a mtd o hdr := by
  have hM := a.M_le
  constructor
  · rintro ⟨hlen, ⟨hk, hks⟩, ⟨hr, hrs⟩, ⟨hkpos, -⟩, ⟨hrpos, -⟩, -⟩
    have h1 : o + trxOffset a hdr 1 < a.M := hr ▸ a.size_lt _
    have h2 : (trxParts a mtd o hdr).rootfs.size < a.M := a.sub_lt _ _
    unfold Part.stop at hks hrs
    rw [hk] at hks
    rw [hr] at hrs
    exact ⟨hlen, by omega, by omega, h1, by omega⟩
  · rintro ⟨hlen, hlt, hr, hrM, hsz⟩
    have e0 : a.size (o + trxOffset a hdr 0) = o + trxOffset a hdr 0 :=
      Arch.size_of_lt (by omega)
    have e1 : a.size (o + trxOffset a hdr 1) = o + trxOffset a hdr 1 := Arch.size_of_lt hrM
    have ek : a.sub (o + trxOffset a hdr 1) (o + trxOffset a hdr 0) =
        trxOffset a hdr 1 - trxOffset a hdr 0 := Arch.sub_eq (by omega) (by omega)
    have er : a.sub mtd.size (o + trxOffset a hdr 1) = mtd.size - (o + trxOffset a hdr 1) :=
      Arch.sub_eq hsz (by omega)
    have hp : trxParts a mtd o hdr =
        ⟨⟨.kernel, o + trxOffset a hdr 0, trxOffset a hdr 1 - trxOffset a hdr 0⟩,
          ⟨.rootfs, o + trxOffset a hdr 1, mtd.size - (o + trxOffset a hdr 1)⟩, 0⟩ := by
      simp only [trxParts, e0, e1, ek, er]
    rw [hp]
    have hkernel : o + trxOffset a hdr 0 + (trxOffset a hdr 1 - trxOffset a hdr 0) =
        o + trxOffset a hdr 1 := by omega
    have hrootfs : o + trxOffset a hdr 1 + (mtd.size - (o + trxOffset a hdr 1)) = mtd.size := by
      omega
    refine ⟨hlen, ⟨rfl, hkernel⟩, ⟨rfl, hrootfs⟩, ⟨Nat.sub_pos_of_lt hlt, ?_⟩,
      ⟨Nat.sub_pos_of_lt hr, Nat.le_of_eq hrootfs⟩, .inl (Nat.le_of_eq hkernel)⟩
    exact hkernel.le.trans (Nat.le_of_lt hr)

/-- **The TRX splitter believes the header.** -/
theorem parseTrx_believes (a : Arch) (mtd : Mtd) (stack : List UInt8) (fuel : Nat) (p : Parts)
    (hp : parseTrx a mtd stack fuel = some (.ok p)) :
    (∃ o hdr, Visited a mtd o ∧ o < mtd.size ∧ TrxHeader mtd o hdr) ∧
      ∀ o hdr, FirstTrx a mtd o hdr → p = trxParts a mtd o hdr ∧ 0 < p.rootfs.size ∧
        (TrxGood a mtd o hdr p ↔ TrxSound a mtd o hdr) := by
  refine ⟨parseTrx_header hp, fun o hdr h => ?_⟩
  obtain ⟨-, hz, rfl⟩ := (parseTrx_first h).mp ⟨fuel, hp⟩
  exact ⟨rfl, Nat.pos_of_ne_zero hz, trxGood_iff⟩

/-- a header with its length and its first two offsets -/
def trxHead (len o0 o1 : UInt32) : List UInt8 :=
  put32 false 0x30524448 ++ put32 false len ++ List.replicate 8 0 ++ put32 false o0 ++
    put32 false o1

/-- the header of the first block -/
def trxHdr : List UInt8 := trxHead 256 32 128 ++ List.replicate 8 0

theorem firstTrx_trxHdr :
    FirstTrx ⟨false, false⟩ (twoBlocks (trxHead 256 32 128) []) 0 trxHdr :=
  ⟨⟨Nat.dvd_zero _, by decide, by decide⟩,
    ⟨⟨by decide +kernel, by decide +kernel⟩, by decide +kernel⟩,
    fun o hdr' _ ho => absurd ho (Nat.not_lt_zero o)⟩

/-- a header that describes an image on the device -/
theorem parseTrx_believes_sound :
    FirstTrx ⟨false, false⟩ (twoBlocks (trxHead 256 32 128) []) 0 trxHdr ∧
      TrxGood ⟨false, false⟩ (twoBlocks (trxHead 256 32 128) []) 0 trxHdr
        ⟨⟨.kernel, 32, 96⟩, ⟨.rootfs, 128, 128⟩, 0⟩ := by
  have h := parseTrx_believes ⟨false, false⟩ (twoBlocks (trxHead 256 32 128) []) [] 1
    ⟨⟨.kernel, 32, 96⟩, ⟨.rootfs, 128, 128⟩, 0⟩ (by decide +kernel)
  obtain ⟨-, -, hgood⟩ := h.2 0 trxHdr firstTrx_trxHdr
  exact ⟨firstTrx_trxHdr, hgood.mpr ⟨by decide +kernel, by decide +kernel, by decide +kernel,
    by decide +kernel, by decide +kernel⟩⟩

/-- the offsets the wrong way round: a kernel of almost 4 GiB on a device of 256 bytes -/
theorem parseTrx_kernel_outside :
    parseTrx ⟨false, false⟩ (twoBlocks (trxHead 256 64 32) []) [] 1 =
      some (.ok ⟨⟨.kernel, 64, 4294967264⟩, ⟨.rootfs, 32, 224⟩, 0⟩) ∧
    ¬ ∃ o hdr, (twoBlocks (trxHead 256 64 32) []).erasesize ∣ o ∧
      TrxHeader (twoBlocks (trxHead 256 64 32) []) o hdr ∧
      TrxGood ⟨false, false⟩ (twoBlocks (trxHead 256 64 32) []) o hdr
        ⟨⟨.kernel, 64, 4294967264⟩, ⟨.rootfs, 32, 224⟩, 0⟩ :=
  ⟨by decide +kernel, fun ⟨_, _, _, _, h⟩ => absurd h.2.2.2 (by decide +kernel)⟩

end Mtdsplit
