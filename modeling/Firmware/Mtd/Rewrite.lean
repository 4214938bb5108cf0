import Firmware.Mtd.Device

/-!
# mtd: rewriting a header

`trx.c`, `imagetag.c` and `seama.c` read the erase block that holds a header, change the header in
their buffer, erase the block and write the buffer back.  `size_t` has 64 bits, and allocations
succeed.

* `blockOffset`        `offset & ~(erasesize - 1)`;
* `withBlock`          reading the block;
* `rewriteBlock`       `mtd_erase_block`, then `pwrite`;
* `rewriteBlock_ret`   what is on the device when both succeed;
* `InBlock.withBlock`  where a header is in the buffer;
* `Fixes`              a header was put right, and nothing else was changed.
-/

set_option linter.unusedVariables false

namespace Mtd
open Img Word CInt

variable {E : Nat}

/-- how a fixer ends: it returns 0, or calls `exit(1)`; `fault` is an access outside a buffer -/
inductive Fixed (E : Nat) where
  | ret (d : Dev E)
  | exit (d : Dev E)
  | fault

def blockOffset (erasesize : Nat) (offset : UInt64) : UInt64 :=
  offset &&& ~~~(UInt64.ofNat erasesize - 1)

/-- an `int` converted to `size_t` -/
def sizeT (i : Int) : UInt64 := UInt64.ofNat (i % 18446744073709551616).toNat

/-- `mtdsize` -/
def mtdsize (d : Dev E) : Int := wrap d.mem.length

/-- the most that one call transfers -/
def maxRw : Nat := 0x7ffff000

/-- `pread`: the bytes that were read -/
def pread (d : Dev E) (n off : Nat) : List UInt8 := slice d.mem off (min n maxRw)

theorem pread_of_le (d : Dev E) {n : Nat} (h : n ≤ maxRw) (off : Nat) :
    pread d n off = slice d.mem off n := by
  unfold pread
  rw [Nat.min_eq_left h]

theorem pread_eq {d : Dev E} {n off : Nat} (h : (pread d n off).length = n) :
    pread d n off = slice d.mem off n ∧ n ≤ maxRw := by
  have hn : n ≤ maxRw := by
    unfold pread slice at h
    rw [List.length_take] at h
    omega
  exact ⟨pread_of_le d hn off, hn⟩

/-- `pwrite`; the file position stays where it is -/
def pwrite (d : Dev E) (data : List UInt8) (off : Nat) : Int × Dev E :=
  let r := write { d with pos := off } data
  (r.1, { r.2 with pos := d.pos })

/-- erase the block at `off` and write `blk` there; `start` of the erase ioctl has 32 bits, as the
`int` in between -/
def rewriteBlock (d : Dev E) (off : Nat) (blk : List UInt8) : Fixed E :=
  match eraseBlock d off with
  | none => .exit d
  | some d =>
    let r := pwrite d blk off
    if r.1 ≠ E then .exit r.2 else .ret r.2

/-- a use of the buffer -/
def access {α : Type} (x : Option α) (f : α → Fixed E) : Fixed E :=
  match x with
  | some a => f a
  | none => .fault

theorem access_some {α : Type} (a : α) (f : α → Fixed E) : access (some a) f = f a := rfl

/-- `f` with the erase block in the buffer, after `mtd_check_open` -/
def withBlock (d : Dev E) (blockOffset : UInt64) (f : List UInt8 → Fixed E) : Fixed E :=
  if blockOffset + UInt64.ofNat E > sizeT (mtdsize d) then .exit d
  else
    let buf := pread d E blockOffset.toNat
    if buf.length ≠ E then .exit d else f buf

/-! ## addresses -/

/-- before a device was opened `erasesize` is 0, and every offset is in block 0 -/
theorem blockOffset_zero (offset : UInt64) : blockOffset 0 offset = 0 := by
  unfold blockOffset
  rw [show ~~~(UInt64.ofNat 0 - 1) = 0 by decide, UInt64.and_zero]

theorem and_not_low (a k : Nat) (hk : k ≤ 64) (ha : a < 2 ^ 64) :
    a &&& (2 ^ 64 - 1 - (2 ^ k - 1)) = a / 2 ^ k * 2 ^ k := by
  have hlow : 2 ^ k - 1 < 2 ^ 64 :=
    Nat.lt_of_lt_of_le (Nat.sub_lt (Nat.two_pow_pos k) Nat.one_pos)
      (Nat.pow_le_pow_right (by decide) hk)
  have hdiv : a / 2 ^ k * 2 ^ k = (a >>> k) <<< k := by
    rw [Nat.shiftRight_eq_div_pow, Nat.shiftLeft_eq]
  rw [hdiv, show 2 ^ 64 - 1 - (2 ^ k - 1) = 2 ^ 64 - (2 ^ k - 1 + 1) by omega]
  apply Nat.eq_of_testBit_eq
  intro i
  rw [Nat.testBit_and, Nat.testBit_two_pow_sub_succ hlow, Nat.testBit_two_pow_sub_one,
    Nat.testBit_shiftLeft, Nat.testBit_shiftRight]
  rcases Nat.lt_or_ge i k with hi | hi
  · rw [decide_eq_true hi, decide_eq_false (by omega : ¬ i ≥ k)]
    simp
  · rw [decide_eq_false (by omega : ¬ i < k), decide_eq_true hi, show k + (i - k) = i by omega]
    rcases Nat.lt_or_ge i 64 with hi' | hi'
    · rw [decide_eq_true hi']
      simp
    · rw [Nat.testBit_lt_two_pow (Nat.lt_of_lt_of_le ha (Nat.pow_le_pow_right (by decide) hi'))]
      simp

/-- the start of the erase block -/
theorem blockOffset_pow {k : Nat} (hE : E = 2 ^ k) (hlt : E < 2 ^ 32) (offset : UInt64) :
    (blockOffset E offset).toNat = offset.toNat / E * E := by
  have hk : k < 32 := (Nat.pow_lt_pow_iff_right (by decide)).mp (hE ▸ hlt)
  have hpos : 0 < E := hE ▸ Nat.two_pow_pos k
  have hn : (UInt64.ofNat E).toNat = E :=
    UInt64.toNat_ofNat_of_lt' (Nat.lt_trans hlt (by decide))
  have hone : (UInt64.ofNat E - 1).toNat = 2 ^ k - 1 := by
    rw [UInt64.toNat_sub_of_le _ _ (by rw [UInt64.le_iff_toNat_le, hn]; exact hpos), hn, hE]
    rfl
  unfold blockOffset
  rw [UInt64.toNat_and, UInt64.toNat_not, hone, hE]
  exact and_not_low offset.toNat k (by omega) offset.toNat_lt

/-- `mtdsize` as a `size_t` is no less than the size -/
theorem sizeT_mtdsize (d : Dev E) : d.mem.length ≤ (sizeT (mtdsize d)).toNat := by
  have ht := d.total
  rw [← d.size] at ht
  unfold sizeT mtdsize wrap
  rw [UInt64.toNat_ofNat_of_lt' (by
    show _ < 18446744073709551616
    omega)]
  omega

/-! ## one block -/

theorem eraseBlock_inv {d d' : Dev E} {b : Nat} (hb : b < d.chip.nblocks)
    (h : eraseBlock d (b * E : Nat) = some d') :
    d'.mem = poke d.mem (b * E) (List.replicate E 0xff) ∧ d'.chip = d.chip ∧
      d'.log = d.log ++ [.erase b] := by
  have hs := eraseStart_block d (Nat.le_of_lt hb)
  generalize ((b * E : Nat) : Int) = i at h hs
  unfold eraseBlock at h
  split at h
  · have hd := Option.some.inj h
    have hm : d'.mem = poke d.mem (eraseStart i) (List.replicate E 0xff) := by rw [← hd]
    have hl : d'.log = d.log ++ [.erase (eraseStart i / E)] := by rw [← hd]
    have hc : d'.chip = d.chip := by rw [← hd]
    rw [hs] at hm hl
    rw [mul_div_block d] at hl
    exact ⟨hm, hc, hl⟩
  · exact absurd h (by simp)

theorem pwrite_inv {d : Dev E} {data : List UInt8} {off n : Nat}
    (hin : off + data.length ≤ d.mem.length) (h : (pwrite d data off).1 = n) :
    (pwrite d data off).2.mem = poke d.mem off (program (slice d.mem off data.length) data) ∧
      (pwrite d data off).2.chip = d.chip ∧
      (pwrite d data off).2.log = d.log ++ [.write (off / E)] := by
  have hfit : data.take (d.mem.length - off) = data := List.take_of_length_le (by omega)
  unfold pwrite write at h ⊢
  simp only at h ⊢
  split at h
  · next hc =>
    rw [dif_pos hc]
    unfold Dev.fitted
    simp only [hfit]
    exact ⟨trivial, trivial, trivial⟩
  · exact absurd h (by simp)

theorem rewriteBlock_inv {d d' : Dev E} {off : Nat} {blk : List UInt8}
    (h : rewriteBlock d off blk = .ret d') : ∃ d₁, eraseBlock d off = some d₁ ∧
      (pwrite d₁ blk off).1 = E ∧ (pwrite d₁ blk off).2 = d' := by
  unfold rewriteBlock at h
  cases he : eraseBlock d off with
  | none =>
    rw [he] at h
    exact absurd h (by simp)
  | some d₁ =>
    rw [he] at h
    by_cases hw : (pwrite d₁ blk off).1 = E
    · exact ⟨d₁, rfl, hw, by simpa [hw] using h⟩
    · exact absurd h (by simp [hw])

/-- **A block that was rewritten** holds the buffer, and nothing else was touched. -/
theorem rewriteBlock_ret {d d' : Dev E} {b : Nat} (hb : b < d.chip.nblocks) {blk : List UInt8}
    (hl : blk.length = E) (h : rewriteBlock d (b * E) blk = .ret d') :
    d'.mem = poke d.mem (b * E) blk ∧ d'.chip = d.chip ∧
      d'.log = d.log ++ [.erase b, .write b] := by
  have hle := block_le d hb
  rw [Nat.add_mul, Nat.one_mul] at hle
  have hrep : (List.replicate E (0xff : UInt8)).length = E := List.length_replicate
  obtain ⟨d₁, he, hw, rfl⟩ := rewriteBlock_inv h
  obtain ⟨m1, c1, l1⟩ := eraseBlock_inv hb he
  have hlen : d₁.mem.length = d.mem.length := by
    rw [m1]
    exact poke_length _ _ _ (by rw [hrep]; exact hle)
  obtain ⟨m2, c2, l2⟩ := pwrite_inv (by rw [hlen, hl]; exact hle) hw
  -- the block was erased, so the write leaves what it was given
  have hff : slice d₁.mem (b * E) blk.length = List.replicate blk.length 0xff := by
    have := slice_poke_self d.mem (b * E) (List.replicate E 0xff) (by rw [hrep]; exact hle)
    rw [hrep] at this
    rw [m1, hl, this]
  refine ⟨?_, c2.trans c1, ?_⟩
  · rw [m2, hff, program_erased, m1,
      poke_poke _ _ _ _ (by rw [hl, hrep]) (by rw [hrep]; exact hle)]
  · rw [l2, l1, mul_div_block d, List.append_assoc]
    rfl

theorem rewriteBlock_some {d : Dev E} {b : Nat} (hb : b < d.chip.nblocks)
    (he : d.chip.eraseFails b = false) (hw : d.chip.writeFails b = false) {blk : List UInt8}
    (hl : blk.length = E) : ∃ d', rewriteBlock d (b * E) blk = .ret d' := by
  obtain ⟨d₁, h1, c1, -⟩ := eraseBlock_some d hb he
  obtain ⟨d₂, h2, -⟩ := write_over { d₁ with pos := b * E } (b := b) (by rw [← c1] at hb; exact hb)
    (by rw [← c1] at hw; exact hw) rfl hl
  have hp : pwrite d₁ blk (b * E) = ((E : Int), { d₂ with pos := d₁.pos }) := by
    unfold pwrite
    rw [h2]
  refine ⟨{ d₂ with pos := d₁.pos }, ?_⟩
  unfold rewriteBlock
  rw [h1]
  simp only [hp]
  rw [if_neg (by simp)]

theorem withBlock_eq {k : Nat} (hE : E = 2 ^ k) (hk : k < 31) {d : Dev E} {o : UInt64} {off : Nat}
    (ho : o.toNat = off) (hle : off + E ≤ d.mem.length) (f : List UInt8 → Fixed E) :
    withBlock d o f = f (slice d.mem off E) := by
  have hpow : (2 : Nat) ^ k ≤ 2 ^ 30 := Nat.pow_le_pow_right (by decide) (by omega)
  have hlt : E ≤ 1073741824 := hE ▸ hpow
  have hsz := sizeT_mtdsize d
  have ht := d.total
  rw [← d.size] at ht
  have hEn : (UInt64.ofNat E).toNat = E :=
    UInt64.toNat_ofNat_of_lt' (Nat.lt_of_le_of_lt hlt (by decide))
  have hsum : (o + UInt64.ofNat E).toNat = off + E := by
    rw [UInt64.toNat_add, hEn, ho]
    exact Nat.mod_eq_of_lt (by omega)
  unfold withBlock
  rw [if_neg (by
    intro hgt
    have := UInt64.lt_iff_toNat_lt.mp hgt
    omega)]
  simp only [ho, pread_of_le d (Nat.le_trans hlt (by decide : 1073741824 ≤ maxRw))]
  rw [if_neg (not_not.mpr (slice_length _ _ _ hle))]

/-! ## a patch in a buffer -/

section
variable {α : Type} {buf t : List α} {r n : Nat} (hb : r + n ≤ buf.length) (ht : t.length = n)
include hb ht

theorem load_patch {k j : Nat} (h : k + j ≤ n) :
    load (poke buf r t) (r + k) j = some (slice t k j) ∧ (slice t k j).length = j := by
  subst ht
  rw [load_poke h hb]
  exact ⟨load_eq_some.mpr ⟨h, rfl⟩, slice_length _ _ _ h⟩

theorem store_patch {e : List α} {k : Nat} (h : k + e.length ≤ n) :
    store (poke buf r t) (r + k) e = some (poke buf r (poke t k e)) ∧ (poke t k e).length = n := by
  subst ht
  rw [store_poke h hb, store_eq_some.mpr ⟨h, rfl⟩]
  exact ⟨rfl, poke_length _ _ _ h⟩

end

/-! ## a header -/

/-- the program returned, only the header of `len` bytes at `offset` was changed, its block was
rewritten or nothing was, and the device is as it should be -/
def Fixes (d : Dev E) (offset len : Nat) (good : List UInt8 → Prop) (r : Fixed E) : Prop :=
  ∃ d', r = .ret d' ∧ d'.mem.length = d.mem.length ∧
    (∀ i, i < offset ∨ offset + len ≤ i → d'.mem[i]? = d.mem[i]?) ∧
    (d'.log = d.log ∨ d'.log = d.log ++ [.erase (offset / E), .write (offset / E)]) ∧ good d'.mem

theorem Fixes.refl {d : Dev E} {offset len : Nat} {good : List UInt8 → Prop} (h : good d.mem) :
    Fixes d offset len good (.ret d) := ⟨d, rfl, rfl, fun _ _ => rfl, .inl rfl, h⟩

theorem fixes_ret {d : Dev E} {offset len : Nat} {good : List UInt8 → Prop} :
    Fixes d offset len good (.ret d) ↔ good d.mem := by
  constructor
  · rintro ⟨d', h, -, -, -, hg⟩
    rw [Fixed.ret.inj h]
    exact hg
  · exact Fixes.refl

theorem not_fixes_exit {d d' : Dev E} {offset len : Nat} {good : List UInt8 → Prop} :
    ¬ Fixes d offset len good (.exit d') := by
  rintro ⟨d'', h, -⟩
  exact absurd h nofun

theorem not_fixes_fault {d : Dev E} {offset len : Nat} {good : List UInt8 → Prop} :
    ¬ Fixes d offset len good .fault := by
  rintro ⟨d'', h, -⟩
  exact absurd h nofun

/-- a header that lies in one block of the device, which can be erased and written -/
structure InBlock (d : Dev E) (offset len : Nat) : Prop where
  header : offset % E + len ≤ E
  size : offset + len ≤ d.mem.length
  pos : 0 < len
  erase : d.chip.eraseFails (offset / E) = false
  write : d.chip.writeFails (offset / E) = false

section
variable {d : Dev E} {offset len : Nat} (h : InBlock d offset len)
include h

theorem InBlock.block : offset / E < d.chip.nblocks := by
  have := h.size
  have := h.pos
  rw [Nat.div_lt_iff_lt_mul d.erasesize, ← d.size]
  omega

theorem InBlock.le : offset / E * E + E ≤ d.mem.length := by
  have := block_le d h.block
  rwa [Nat.add_mul, Nat.one_mul] at this

/-- the header in the buffer -/
theorem InBlock.slice : slice (slice d.mem (offset / E * E) E) (offset % E) len
    = Img.slice d.mem offset len := by
  rw [slice_slice d.mem h.header, Nat.div_add_mod']

/-- what is on the device after the block was rewritten with a new header -/
theorem InBlock.rewrite {t : List UInt8} (ht : t.length = len) :
    ∃ d', rewriteBlock d (offset / E * E) (poke (Img.slice d.mem (offset / E * E) E) (offset % E) t)
        = .ret d' ∧ d'.mem = poke d.mem offset t ∧
      d'.log = d.log ++ [.erase (offset / E), .write (offset / E)] := by
  have hl : (poke (Img.slice d.mem (offset / E * E) E) (offset % E) t).length = E := by
    rw [poke_length _ _ _ (by rw [ht, slice_length _ _ _ h.le]; exact h.header),
      slice_length _ _ _ h.le]
  obtain ⟨d', h'⟩ := rewriteBlock_some h.block h.erase h.write hl
  obtain ⟨hm, -, hg⟩ := rewriteBlock_ret h.block hl h'
  refine ⟨d', h', ?_, hg⟩
  rw [hm, poke_slice _ _ _ _ _ (by rw [ht]; exact h.header) h.le, Nat.div_add_mod']

theorem InBlock.fixes {t : List UInt8} (ht : t.length = len) {good : List UInt8 → Prop} :
    Fixes d offset len good (rewriteBlock d (offset / E * E)
      (poke (Img.slice d.mem (offset / E * E) E) (offset % E) t)) ↔ good (poke d.mem offset t) := by
  obtain ⟨d', h', hm, hg⟩ := h.rewrite ht
  rw [h']
  constructor
  · rintro ⟨d'', he, -, -, -, hgood⟩
    rw [← hm, Fixed.ret.inj he]
    exact hgood
  · intro hgood
    have hle : offset + t.length ≤ d.mem.length := ht ▸ h.size
    refine ⟨d', rfl, by rw [hm, poke_length _ _ _ hle], fun i hi => ?_, .inr hg, hm ▸ hgood⟩
    rw [hm, poke_getElem? _ _ _ _ hle (by rw [ht]; exact hi)]

/-- the header as a part of the buffer -/
theorem InBlock.buffer : poke (Img.slice d.mem (offset / E * E) E) (offset % E)
    (Img.slice d.mem offset len) = Img.slice d.mem (offset / E * E) E := by
  rw [← h.slice]
  exact poke_slice_self _ (by rw [slice_length _ _ _ h.le]; exact h.header)

/-- the block and the place of the header in it, unless `erasesize` was still 0 and the header is
in another block than the first -/
theorem InBlock.inner {k : Nat} (hE : E = 2 ^ k) (hk : k < 31) {g : Nat} {o : UInt64}
    (ho : o.toNat = offset) (hg : g = E ∨ g = 0 ∧ offset < E) :
    (blockOffset g o).toNat = offset / E * E ∧ (o - blockOffset g o).toNat = offset % E := by
  have hlt : E < 2 ^ 31 := hE ▸ Nat.pow_lt_pow_right (by decide) hk
  have hb : (blockOffset g o).toNat = offset / E * E := by
    rcases hg with rfl | ⟨rfl, hg⟩
    · rw [blockOffset_pow hE (Nat.lt_trans hlt (by decide)), ho]
    · rw [blockOffset_zero, Nat.div_eq_of_lt hg, Nat.zero_mul]
      rfl
  have hs := Nat.div_add_mod' offset E
  refine ⟨hb, ?_⟩
  rw [UInt64.toNat_sub_of_le _ _ (by rw [UInt64.le_iff_toNat_le, hb, ho]; omega), hb, ho]
  omega

theorem InBlock.load {k j : Nat} (hk : k + j ≤ len) :
    Img.load (Img.slice d.mem (offset / E * E) E) (offset % E + k) j = Img.load d.mem (offset + k) j := by
  have := h.header
  rw [load_slice (by omega) h.le, ← Nat.add_assoc, Nat.div_add_mod']

end

/-- with `erasesize` 0 the header is looked for behind the buffer -/
theorem withBlock_zero {k : Nat} (hE : E = 2 ^ k) (hk : k < 31) {d : Dev E} {o : UInt64} {len : Nat}
    (h : InBlock d o.toNat len) (f : List UInt8 → Fixed E) :
    withBlock d (blockOffset 0 o) f = f (slice d.mem 0 E) ∧ (o - blockOffset 0 o) = o := by
  have hz := blockOffset_zero o
  have hle := h.le
  rw [hz]
  refine ⟨withBlock_eq hE hk (show (0 : UInt64).toNat = 0 from rfl) ?_ f, UInt64.sub_zero o⟩
  omega

end Mtd
