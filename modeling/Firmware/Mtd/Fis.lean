import Firmware.Lib.Bytes

/-!
# mtd: `fis_remap`

The FIS directory is one erase block of descriptors of 256 bytes; `fis_remap` replaces the
descriptors of the partitions `old` by those of `new`.

* `scan`, `narrow`   the two loops over the directory;
* `fisRemap`         the new directory; `none` is an access outside the erase block;
* `Layout`           a directory with the old partitions in consecutive slots;
* `fisRemap_iff`     the other entries are kept when there are not fewer new partitions.

All counts are multiples of a descriptor, so the block is a list of slots.
-/

set_option linter.unusedVariables false

namespace Fis
open Img

/-- `struct fis_image_desc` -/
structure Desc where
  name : List UInt8
  flashBase : UInt32
  memBase : UInt32
  size : UInt32
  entryPoint : UInt32
  dataLength : UInt32
  pad : List UInt8
  crcDesc : UInt32
  crcFile : UInt32

/-- all bytes are 0xff -/
def Desc.erased : Desc :=
  ⟨List.replicate 16 0xff, 0xffffffff, 0xffffffff, 0xffffffff, 0xffffffff, 0xffffffff,
    List.replicate 212 0xff, 0xffffffff, 0xffffffff⟩

/-- `struct fis_part` -/
structure Part where
  name : List UInt8
  loadaddr : UInt32
  size : UInt32

/-- `strncmp(..) == 0` -/
def strncmp : Nat → List UInt8 → List UInt8 → Bool
  | n + 1, a :: as, b :: bs => a = b && (a = 0 || strncmp n as bs)
  | _, _, _ => true

/-- the end of the directory -/
def Desc.unused (d : Desc) : Bool := d.name.getD 0 0 = 0 || d.name.getD 0 0 = 0xff

def isOld (old : List Part) (d : Desc) : Bool := old.any fun p => strncmp 16 d.name p.name

structure Scan where
  first : Option Nat
  last : Option Nat
  offset : UInt32

def Scan.visit (old : List Part) (s : Scan) (i : Nat) (d : Desc) : Scan :=
  let offset := if s.offset < d.flashBase then d.flashBase else s.offset
  if isOld old d then ⟨some (s.first.getD i), some i, offset⟩ else ⟨s.first, s.last, offset⟩

/-- the first loop: the first and the last of the old partitions, and the greatest offset -/
def scan (old : List Part) : List Desc → Nat → Scan → Scan
  | [], _, s => s
  | d :: ds, i, s => if d.unused then s else scan old ds (i + 1) (s.visit old i d)

/-- the second loop: the start of the next partition above `base` -/
def narrow (base : UInt32) : List Desc → UInt32 → UInt32
  | [], offset => offset
  | d :: ds, offset =>
    if d.unused then offset
    else narrow base ds (if d.flashBase > base ∧ d.flashBase < offset then d.flashBase else offset)

def memmove (m : List Desc) (dst src n : Nat) : Option (List Desc) := (load m src n).bind (store m dst)

/-- the count is a `size_t`: a negative one leaves the block -/
def memset (m : List Desc) (i : Nat) (count : Int) : Option (List Desc) :=
  if count < 0 then none else store m i (List.replicate count.toNat .erased)

/-- make room for the new descriptors at `desc`, where `last` is behind the old ones -/
def shift (m : List Desc) (desc last : Nat) : Option (List Desc) :=
  if desc = last then some m
  else
    let tmp := if desc > last then desc else last
    (memmove m desc last (m.length - tmp)).bind fun m' =>
      if desc < last then
        let tmp := m.length - (last - desc)
        memset m' tmp ((tmp : Int) - m.length)
      else some m'

def entry (p : Part) (offset size : UInt32) : Desc :=
  let sz := if p.size > 0 then p.size else size
  ⟨p.name, offset, p.loadaddr, sz, p.loadaddr, sz, List.replicate 212 0, 0, 0⟩

def writeParts : List Part → List Desc → Nat → UInt32 → UInt32 → Option (List Desc)
  | [], m, _, _, _ => some m
  | p :: ps, m, desc, offset, size =>
    let e := entry p offset size
    (store m desc [e]).bind fun m => writeParts ps m (desc + 1) (offset + e.size) (size - e.size)

/-- `first_fb` and `last_fb` -/
def byBase (a b : Desc) : Desc × Desc := if a.flashBase > b.flashBase then (b, a) else (a, b)

def fisRemap (block : List Desc) (old new : List Part) : Option (List Desc) :=
  let s := scan old block 0 ⟨none, none, 0⟩
  s.first.bind fun first => s.last.bind fun last =>
    block[first]?.bind fun d => block[last]?.bind fun d' =>
      let fb := byBase d d'
      let size := narrow fb.2.flashBase block s.offset - fb.1.flashBase
      (shift block (first + new.length) (last + 1)).bind fun m =>
        writeParts new m first fb.1.flashBase size

/-! ## directories -/

/-- `pre`, the old partitions in consecutive slots, `post`, and free slots -/
structure Layout (old : List Part) (pre mid post free : List Desc) : Prop where
  used_pre : ∀ d ∈ pre, d.unused = false ∧ isOld old d = false
  used_mid : ∀ d ∈ mid, d.unused = false ∧ isOld old d = true
  used_post : ∀ d ∈ post, d.unused = false ∧ isOld old d = false
  mid_ne : mid ≠ []
  free_head : ∀ d, free.head? = some d → d.unused = true

/-- the new descriptors -/
def entries : List Part → UInt32 → UInt32 → List Desc
  | [], _, _ => []
  | p :: ps, offset, size =>
    let e := entry p offset size
    e :: entries ps (offset + e.size) (size - e.size)

theorem entries_length : ∀ (ps : List Part) (offset size : UInt32),
    (entries ps offset size).length = ps.length
  | [], _, _ => rfl
  | p :: ps, offset, size => congrArg (· + 1) (entries_length ps _ _)

/-- what should be left: the other entries in their order around the new ones, and erased slots
where the directory gets shorter -/
def Kept (new : List Part) (pre mid post free block : List Desc) : Prop :=
  ∃ offset size, block = pre ++ (entries new offset size ++ (post ++
    (free.take (mid.length + free.length - new.length) ++
      List.replicate (mid.length - new.length) .erased)))

/-! ## the loops -/

section
variable {old : List Part}

theorem scan_skip : ∀ {l : List Desc} (r : List Desc) (i : Nat) (s : Scan),
    (∀ d ∈ l, d.unused = false ∧ isOld old d = false) →
    ∃ offset, scan old (l ++ r) i s = scan old r (i + l.length) ⟨s.first, s.last, offset⟩
  | [], r, i, s, _ => ⟨s.offset, rfl⟩
  | d :: l, r, i, s, h => by
    obtain ⟨hu, ho⟩ := h d (List.mem_cons_self ..)
    obtain ⟨offset, e⟩ := scan_skip r (i + 1) (s.visit old i d)
      (fun d hd => h d (List.mem_cons_of_mem _ hd))
    refine ⟨offset, ?_⟩
    rw [List.cons_append, scan, hu, if_neg (by simp), e, List.length_cons]
    unfold Scan.visit
    rw [ho, Nat.add_assoc, Nat.add_comm 1]
    rfl

theorem scan_olds : ∀ {l : List Desc} (r : List Desc) (i : Nat) (s : Scan), l ≠ [] →
    (∀ d ∈ l, d.unused = false ∧ isOld old d = true) →
    ∃ offset, scan old (l ++ r) i s
      = scan old r (i + l.length) ⟨some (s.first.getD i), some (i + l.length - 1), offset⟩
  | [], r, i, s, hne, _ => absurd rfl hne
  | d :: l, r, i, s, _, h => by
    obtain ⟨hu, ho⟩ := h d (List.mem_cons_self ..)
    have hv : s.visit old i d = ⟨some (s.first.getD i), some i, (s.visit old i d).offset⟩ := by
      unfold Scan.visit
      rw [ho]
      rfl
    rw [List.cons_append, scan, hu, if_neg (by simp), hv]
    cases l with
    | nil => exact ⟨_, rfl⟩
    | cons d' l =>
      obtain ⟨offset, e⟩ := scan_olds r (i + 1) ⟨some (s.first.getD i), some i,
        (s.visit old i d).offset⟩ (by simp) (fun d hd => h d (List.mem_cons_of_mem _ hd))
      refine ⟨offset, ?_⟩
      rw [e, Option.getD_some, List.length_cons (a := d),
        show i + 1 + (d' :: l).length = i + ((d' :: l).length + 1) by omega]

theorem scan_free {l : List Desc} (i : Nat) (s : Scan)
    (h : ∀ d, l.head? = some d → d.unused = true) : scan old l i s = s := by
  cases l with
  | nil => rfl
  | cons d l => rw [scan, h d rfl, if_pos rfl]

theorem Layout.scan {pre mid post free : List Desc} (h : Layout old pre mid post free) :
    ∃ offset, scan old (pre ++ (mid ++ (post ++ free))) 0 ⟨none, none, 0⟩
      = ⟨some pre.length, some (pre.length + mid.length - 1), offset⟩ := by
  obtain ⟨o1, e1⟩ := scan_skip (mid ++ (post ++ free)) 0 ⟨none, none, 0⟩ h.used_pre
  obtain ⟨o2, e2⟩ := scan_olds (post ++ free) (0 + pre.length) ⟨none, none, o1⟩ h.mid_ne h.used_mid
  obtain ⟨o3, e3⟩ := scan_skip free (0 + pre.length + mid.length)
    ⟨some (0 + pre.length), some (0 + pre.length + mid.length - 1), o2⟩ h.used_post
  refine ⟨o3, ?_⟩
  rw [e1, e2, Option.getD_none, e3, scan_free _ _ h.free_head, Nat.zero_add]

end

theorem writeParts_eq : ∀ (ps : List Part) (m : List Desc) (i : Nat) (offset size : UInt32),
    i + ps.length ≤ m.length →
    writeParts ps m i offset size = some (poke m i (entries ps offset size))
  | [], m, i, offset, size, _ => by
    rw [show entries [] offset size = [] from rfl, poke_nil]
    rfl
  | p :: ps, m, i, offset, size, h => by
    rw [List.length_cons] at h
    have hs : store m i [entry p offset size] = some (poke m i [entry p offset size]) :=
      store_eq_some.mpr ⟨by simp; omega, rfl⟩
    have hl := store_length hs
    simp only [writeParts]
    rw [hs, Option.bind_some, writeParts_eq ps _ _ _ _ (by omega), poke_cons _ _ _ (by omega)]
    rfl

/-! ## the directory afterwards -/

section
variable {old new : List Part} {pre mid post free : List Desc}

/-- fewer new partitions: the count of the `memset` is negative -/
theorem shift_shrink {m : List Desc} {desc last : Nat} (h : desc < last) (hl : last ≤ m.length) :
    shift m desc last = none := by
  simp only [shift]
  rw [if_neg (by omega)]
  cases memmove m desc last (m.length - if desc > last then desc else last) with
  | none => rfl
  | some m' =>
    rw [Option.bind_some, if_pos h]
    unfold memset
    rw [if_pos (by omega)]

/-- more new partitions: what follows the old ones moves up -/
theorem shift_grow {n : Nat} (h : mid.length ≤ n) (hn : n ≤ mid.length + free.length) :
    ∃ gap, gap.length = n ∧
      shift (pre ++ (mid ++ (post ++ free))) (pre.length + n) (pre.length + mid.length)
        = some (pre ++ (gap ++ (post ++ free.take (mid.length + free.length - n)))) := by
  rcases Nat.eq_or_lt_of_le h with heq | hlt
  · refine ⟨mid, heq, ?_⟩
    simp only [shift]
    rw [if_pos (by omega), show mid.length + free.length - n = free.length by omega, List.take_length]
  · have hlen : (pre ++ (mid ++ (post ++ free))).length
        = pre.length + mid.length + post.length + free.length := by
      simp only [List.length_append]
      omega
    have hk : (pre ++ (mid ++ (post ++ free))).length - (pre.length + n)
        = (post ++ free.take (mid.length + free.length - n)).length := by
      rw [hlen, List.length_append, List.length_take]
      omega
    have hload : load (pre ++ (mid ++ (post ++ free))) (pre.length + mid.length)
        (post ++ free.take (mid.length + free.length - n)).length
        = some (post ++ free.take (mid.length + free.length - n)) := by
      refine load_split (a := pre ++ mid) (c := free.drop (mid.length + free.length - n)) ?_ ?_ rfl
      · simp only [List.append_assoc, List.take_append_drop]
      · rw [List.length_append]
    have hsplit : pre ++ (mid ++ (post ++ free)) = (pre ++ (mid ++ (post ++ free)).take n) ++
        ((mid ++ (post ++ free)).drop n ++ []) := by
      rw [List.append_nil, List.append_assoc, List.take_append_drop]
    have hgap : ((mid ++ (post ++ free)).take n).length = n := by
      simp only [List.length_take, List.length_append]
      omega
    have hstore : store (pre ++ (mid ++ (post ++ free))) (pre.length + n)
        (post ++ free.take (mid.length + free.length - n))
        = some (pre ++ ((mid ++ (post ++ free)).take n ++
          (post ++ free.take (mid.length + free.length - n)))) := by
      rw [store_split hsplit (by rw [List.length_append, hgap]) (by
        simp only [List.length_append, List.length_drop, List.length_take]
        omega), List.append_nil, List.append_assoc]
    refine ⟨(mid ++ (post ++ free)).take n, hgap, ?_⟩
    simp only [shift, memmove]
    rw [if_neg (by omega), if_pos (by omega), hk, hload, Option.bind_some, hstore, Option.bind_some,
      if_neg (by omega)]

/-- **Rewriting the directory** keeps the other entries exactly when the new partitions are not
fewer than the slots they replace. -/
theorem fisRemap_iff (h : Layout old pre mid post free) (hnew : 1 ≤ new.length)
    (hfree : new.length ≤ mid.length + free.length) :
    (∃ block, fisRemap (pre ++ (mid ++ (post ++ free))) old new = some block ∧
      Kept new pre mid post free block) ↔ mid.length ≤ new.length := by
  obtain ⟨o, hscan⟩ := h.scan
  have hpos : 0 < mid.length := List.length_pos_iff.mpr h.mid_ne
  have hlen : (pre ++ (mid ++ (post ++ free))).length
      = pre.length + mid.length + post.length + free.length := by
    simp only [List.length_append]
    omega
  obtain ⟨d, hd⟩ : ∃ d, (pre ++ (mid ++ (post ++ free)))[pre.length]? = some d :=
    ⟨_, List.getElem?_eq_getElem (by omega)⟩
  obtain ⟨d', hd'⟩ : ∃ d', (pre ++ (mid ++ (post ++ free)))[pre.length + mid.length - 1]? = some d' :=
    ⟨_, List.getElem?_eq_getElem (by omega)⟩
  unfold fisRemap
  simp only [hscan, Option.bind_some, hd, hd']
  rw [show pre.length + mid.length - 1 + 1 = pre.length + mid.length by omega]
  constructor
  · rintro ⟨block, hb, -⟩
    by_contra hlt
    rw [shift_shrink (by omega) (by omega)] at hb
    exact absurd hb (by simp)
  · intro hle
    obtain ⟨gap, hgap, hshift⟩ := @shift_grow pre mid post free _ hle hfree
    generalize narrow (byBase d d').2.flashBase _ o - (byBase d d').1.flashBase = size
    rw [hshift, Option.bind_some, writeParts_eq _ _ _ _ _ (by
      simp only [List.length_append]
      omega)]
    refine ⟨_, rfl, (byBase d d').1.flashBase, size, ?_⟩
    rw [poke_of_split rfl rfl (by rw [entries_length, hgap]),
      show mid.length - new.length = 0 by omega, List.replicate_zero, List.append_nil]

end

/-- a descriptor with a name of one letter -/
def letter (c : UInt8) (base : UInt32) : Desc :=
  ⟨c :: List.replicate 15 0, base, base, 0x10000, base, 0x10000, List.replicate 212 0, 0, 0⟩

def letterPart (c : UInt8) (size : UInt32) : Part := ⟨c :: List.replicate 15 0, 0x80000000, size⟩

theorem letter_layout : Layout [letterPart 66 0, letterPart 67 0] [letter 65 0]
    [letter 66 0x10000, letter 67 0x20000] [letter 68 0x30000] [.erased, .erased] := by
  refine ⟨by decide, by decide, by decide, by simp, ?_⟩
  intro d hd
  rw [← Option.some.inj hd]
  decide

/-- two partitions become three -/
theorem fisRemap_iff_grow : ∃ block, fisRemap [letter 65 0, letter 66 0x10000, letter 67 0x20000,
      letter 68 0x30000, .erased, .erased] [letterPart 66 0, letterPart 67 0]
      [letterPart 88 0x8000, letterPart 89 0x8000, letterPart 90 0] = some block ∧
    Kept [letterPart 88 0x8000, letterPart 89 0x8000, letterPart 90 0] [letter 65 0]
      [letter 66 0x10000, letter 67 0x20000] [letter 68 0x30000] [.erased, .erased] block :=
  (fisRemap_iff letter_layout (by decide) (by decide)).mpr (by decide)

/-- two partitions become one -/
theorem fisRemap_shrink : Layout [letterPart 66 0, letterPart 67 0] [letter 65 0]
      [letter 66 0x10000, letter 67 0x20000] [letter 68 0x30000] [.erased, .erased] ∧
    fisRemap [letter 65 0, letter 66 0x10000, letter 67 0x20000, letter 68 0x30000, .erased, .erased]
      [letterPart 66 0, letterPart 67 0] [letterPart 88 0] = none :=
  ⟨letter_layout, by rfl⟩

end Fis
