import Firmware.Mtd.Validate

/-!
# mtd: the flash ranges of `fis_remap`

The new partitions share the space from the lowest partition that is replaced to the next one that
is kept.

* `Tiles`                  ranges one behind the other;
* `scan_spec`, `narrow_spec`   the running maximum and the minimum over the directory;
* `Span`                   a directory with the first and the last slot that is replaced;
* `Freed`                  the replaced partitions occupy `lo` to `hi`, the next one starts at `top`;
* `entries_tiles`          the new partitions fill the space they are given;
* `fisRemap_tiles_iff`     when they fill the space that was freed.
-/

set_option linter.unusedVariables false

namespace Fis
open Img

/-! ## ranges -/

def Desc.lo (d : Desc) : Nat := d.flashBase.toNat

def Desc.hi (d : Desc) : Nat := d.flashBase.toNat + d.size.toNat

/-- the ranges of a list lie one behind the other, from `a` to `b` -/
def Tiles : Nat → List Desc → Nat → Prop
  | a, [], b => a = b
  | a, d :: ds, b => d.lo = a ∧ Tiles d.hi ds b

instance decTiles : ∀ (a : Nat) (l : List Desc) (b : Nat), Decidable (Tiles a l b)
  | a, [], b => inferInstanceAs (Decidable (a = b))
  | a, d :: ds, b => @instDecidableAnd _ _ (inferInstanceAs (Decidable (d.lo = a))) (decTiles d.hi ds b)

/-- two ranges do not overlap -/
def Apart (d e : Desc) : Prop := d.hi ≤ e.lo ∨ e.hi ≤ d.lo

theorem Tiles.le : ∀ {l : List Desc} {a b : Nat}, Tiles a l b → a ≤ b
  | [], a, b, h => Nat.le_of_eq h
  | d :: l, a, b, ⟨h, ht⟩ => by
    have := ht.le
    unfold Desc.hi Desc.lo at *
    omega

theorem Tiles.mem : ∀ {l : List Desc} {a b : Nat}, Tiles a l b → ∀ d ∈ l, a ≤ d.lo ∧ d.hi ≤ b
  | d :: l, a, b, ⟨h, ht⟩, e, he => by
    have hle := ht.le
    have hd : d.lo ≤ d.hi := Nat.le_add_right _ _
    rcases List.mem_cons.mp he with rfl | he
    · exact ⟨Nat.le_of_eq h.symm, hle⟩
    · have := ht.mem e he
      exact ⟨by omega, this.2⟩

theorem Tiles.pairwise : ∀ {l : List Desc} {a b : Nat}, Tiles a l b →
    l.Pairwise fun d e => d.hi ≤ e.lo
  | [], a, b, h => List.Pairwise.nil
  | d :: l, a, b, ⟨h, ht⟩ => List.pairwise_cons.mpr ⟨fun e he => (ht.mem e he).1, ht.pairwise⟩

/-! ## the loops over the directory -/

theorem used_cons {d : Desc} (ds : List Desc) (h : d.unused = false) :
    used (d :: ds) = d :: used ds := by
  unfold used
  rw [List.takeWhile_cons, h]
  rfl

theorem used_stop {d : Desc} (ds : List Desc) (h : d.unused = true) : used (d :: ds) = [] := by
  unfold used
  rw [List.takeWhile_cons, h]
  rfl

theorem used_append {l r : List Desc} (h : ∀ d ∈ l, d.unused = false) :
    used (l ++ r) = l ++ used r := by
  unfold used
  exact List.takeWhile_append_of_pos fun d hd => by rw [h d hd]; rfl

/-- the greatest flash base -/
theorem scan_spec (old : List Part) (l : List Desc) (i : Nat) (s : Scan) :
    s.offset ≤ (scan old l i s).offset ∧
    (∀ d ∈ used l, d.flashBase ≤ (scan old l i s).offset) ∧
    ((scan old l i s).offset = s.offset ∨ ∃ d ∈ used l, (scan old l i s).offset = d.flashBase) := by
  induction l generalizing i s with
  | nil => exact ⟨UInt32.le_refl _, fun d hd => absurd hd List.not_mem_nil, .inl rfl⟩
  | cons d ds ih =>
    rw [scan]
    cases hu : d.unused with
    | true =>
      rw [if_pos rfl, used_stop ds hu]
      exact ⟨UInt32.le_refl _, fun d hd => absurd hd List.not_mem_nil, .inl rfl⟩
    | false =>
      have hv : (s.visit old i d).offset = if s.offset < d.flashBase then d.flashBase else s.offset := by
        unfold Scan.visit
        dsimp only
        split <;> rfl
      obtain ⟨h1, h2, h3⟩ := ih (i + 1) (s.visit old i d)
      rw [if_neg (by decide), used_cons ds hu]
      generalize (scan old ds (i + 1) (s.visit old i d)).offset = o at h1 h2 h3 ⊢
      rw [hv] at h1 h3
      by_cases hlt : s.offset < d.flashBase
      · rw [if_pos hlt] at h1 h3
        refine ⟨UInt32.le_trans (UInt32.le_of_lt hlt) h1, fun e he => ?_, .inr ?_⟩
        · rcases List.mem_cons.mp he with rfl | he
          · exact h1
          · exact h2 e he
        · rcases h3 with h3 | ⟨e, he, h3⟩
          · exact ⟨d, List.mem_cons_self, h3⟩
          · exact ⟨e, List.mem_cons_of_mem _ he, h3⟩
      · rw [if_neg hlt] at h1 h3
        refine ⟨h1, fun e he => ?_, ?_⟩
        · rcases List.mem_cons.mp he with rfl | he
          · exact UInt32.le_trans (UInt32.not_lt.mp hlt) h1
          · exact h2 e he
        · rcases h3 with h3 | ⟨e, he, h3⟩
          · exact .inl h3
          · exact .inr ⟨e, List.mem_cons_of_mem _ he, h3⟩

/-- the least flash base above `base` -/
theorem narrow_spec (base : UInt32) : ∀ (l : List Desc) (o : UInt32), narrow base l o ≤ o ∧
    (∀ d ∈ used l, base < d.flashBase → narrow base l o ≤ d.flashBase) ∧
    (narrow base l o = o ∨ ∃ d ∈ used l, base < d.flashBase ∧ narrow base l o = d.flashBase)
  | [], o => ⟨UInt32.le_refl _, nofun, .inl rfl⟩
  | d :: ds, o => by
    rw [narrow]
    cases hu : d.unused with
    | true =>
      rw [if_pos rfl, used_stop ds hu]
      exact ⟨UInt32.le_refl _, nofun, .inl rfl⟩
    | false =>
      rw [if_neg (by decide), used_cons ds hu]
      by_cases hc : d.flashBase > base ∧ d.flashBase < o
      · obtain ⟨h1, h2, h3⟩ := narrow_spec base ds d.flashBase
        rw [if_pos hc]
        refine ⟨UInt32.le_trans h1 (UInt32.le_of_lt hc.2), fun e he hb => ?_, .inr ?_⟩
        · rcases List.mem_cons.mp he with rfl | he
          · exact h1
          · exact h2 e he hb
        · rcases h3 with h3 | ⟨e, he, h3⟩
          · exact ⟨d, List.mem_cons_self, hc.1, h3⟩
          · exact ⟨e, List.mem_cons_of_mem _ he, h3⟩
      · obtain ⟨h1, h2, h3⟩ := narrow_spec base ds o
        rw [if_neg hc]
        refine ⟨h1, fun e he hb => ?_, h3.imp id fun ⟨e, he, h3⟩ => ⟨e, List.mem_cons_of_mem _ he, h3⟩⟩
        rcases List.mem_cons.mp he with rfl | he
        · exact UInt32.le_trans h1 (UInt32.not_lt.mp fun hlt => hc ⟨hb, hlt⟩)
        · exact h2 e he hb

/-- the two loops together find the next partition above `base` -/
theorem narrow_scan (old : List Part) {block : List Desc} {base : UInt32} {r : Desc}
    (hr : r ∈ used block) (hlt : base < r.flashBase) :
    (∃ d ∈ used block, base < d.flashBase ∧
      narrow base block (scan old block 0 ⟨none, none, 0⟩).offset = d.flashBase) ∧
    ∀ d ∈ used block, base < d.flashBase →
      narrow base block (scan old block 0 ⟨none, none, 0⟩).offset ≤ d.flashBase := by
  obtain ⟨-, hmax, hfrom⟩ := scan_spec old block 0 ⟨none, none, 0⟩
  generalize (scan old block 0 ⟨none, none, 0⟩).offset = o at hmax hfrom ⊢
  obtain ⟨-, hmin, hval⟩ := narrow_spec base block o
  refine ⟨?_, hmin⟩
  rcases hval with hval | hval
  · have ho : base < o := UInt32.lt_of_lt_of_le hlt (hmax r hr)
    rcases hfrom with h0 | ⟨d, hd, h0⟩
    · rw [h0] at ho
      exact absurd ho (UInt32.not_lt.mpr (UInt32.zero_le))
    · exact ⟨d, hd, h0 ▸ ho, hval.trans h0⟩
  · exact hval

/-! ## the slots -/

/-- `mid` goes from the first to the last slot that is replaced; free slots follow `post` -/
structure Span (old : List Part) (pre mid post free : List Desc) (first last : Desc) : Prop where
  used_pre : ∀ d ∈ pre, d.unused = false ∧ isOld old d = false
  used_mid : ∀ d ∈ mid, d.unused = false
  used_post : ∀ d ∈ post, d.unused = false ∧ isOld old d = false
  head : mid.head? = some first
  tail : mid.getLast? = some last
  old_first : isOld old first = true
  old_last : isOld old last = true
  free_head : ∀ d, free.head? = some d → d.unused = true

theorem scan_append {old : List Part} (r : List Desc) : ∀ {l : List Desc} (i : Nat) (s : Scan),
    (∀ d ∈ l, d.unused = false) → scan old (l ++ r) i s = scan old r (i + l.length) (scan old l i s)
  | [], i, s, _ => rfl
  | d :: l, i, s, h => by
    rw [List.cons_append, scan, scan, h d List.mem_cons_self, if_neg (by decide),
      if_neg (by decide), scan_append r (i + 1) _ fun e he => h e (List.mem_cons_of_mem _ he),
      List.length_cons, Nat.add_assoc, Nat.add_comm 1]

/-- the first slot stays -/
theorem scan_first {old : List Part} {f : Nat} : ∀ (l : List Desc) (i : Nat) (s : Scan),
    s.first = some f → (scan old l i s).first = some f
  | [], i, s, h => h
  | d :: l, i, s, h => by
    rw [scan]
    split
    · exact h
    · refine scan_first l (i + 1) _ ?_
      unfold Scan.visit
      dsimp only
      split
      · rw [h]
        rfl
      · exact h

section
variable {old new : List Part} {pre mid post free : List Desc} {first last : Desc}
  (h : Span old pre mid post free first last)
include h

theorem Span.length_pos : 0 < mid.length := by
  cases mid with
  | nil => exact absurd h.head nofun
  | cons d l => exact Nat.succ_pos _

theorem Span.used : used (pre ++ (mid ++ (post ++ free))) = pre ++ (mid ++ post) := by
  have hfree : Fis.used free = [] := by
    cases free with
    | nil => rfl
    | cons d l => exact used_stop l (h.free_head d rfl)
  rw [used_append fun d hd => (h.used_pre d hd).1, used_append h.used_mid,
    used_append fun d hd => (h.used_post d hd).1, hfree, List.append_nil]

theorem Span.scan : ∃ o, scan old (pre ++ (mid ++ (post ++ free))) 0 ⟨none, none, 0⟩
    = ⟨some pre.length, some (pre.length + mid.length - 1), o⟩ := by
  obtain ⟨o₁, e₁⟩ := scan_skip (mid ++ (post ++ free)) 0 ⟨none, none, 0⟩ h.used_pre
  obtain ⟨o₃, e₃⟩ := scan_skip free (0 + pre.length + mid.length)
    (Fis.scan old mid (0 + pre.length) ⟨none, none, o₁⟩) h.used_post
  have hf : (Fis.scan old mid (0 + pre.length) ⟨none, none, o₁⟩).first = some pre.length := by
    obtain ⟨l, rfl⟩ : ∃ l, mid = first :: l := by
      cases mid with
      | nil => exact absurd h.head nofun
      | cons d l => exact ⟨l, by rw [Option.some.inj h.head]⟩
    rw [Fis.scan, h.used_mid first List.mem_cons_self, if_neg (by decide)]
    refine scan_first l _ _ ?_
    unfold Scan.visit
    rw [h.old_first, Nat.zero_add]
    rfl
  have hl : (Fis.scan old mid (0 + pre.length) ⟨none, none, o₁⟩).last
      = some (pre.length + mid.length - 1) := by
    obtain ⟨l, rfl⟩ : ∃ l, mid = l ++ [last] := List.getLast?_eq_some_iff.mp h.tail
    rw [scan_append [last] _ _ fun d hd => h.used_mid d (List.mem_append_left _ hd), Fis.scan,
      h.used_mid last (by simp), if_neg (by decide)]
    show (Scan.visit old _ _ last).last = _
    unfold Scan.visit
    rw [h.old_last, List.length_append, List.length_singleton]
    show some _ = some _
    congr 1
    omega
  refine ⟨o₃, ?_⟩
  rw [e₁, scan_append _ _ _ h.used_mid, e₃, scan_free _ _ h.free_head, hf, hl]

end

theorem writeParts_slice (ps : List Part) (m : List Desc) {i : Nat} (offset size : UInt32)
    (h : i + ps.length ≤ m.length) : ∃ m', writeParts ps m i offset size = some m' ∧
      slice m' i ps.length = entries ps offset size := by
  have hl := entries_length ps offset size
  have hs := slice_poke_self m i (entries ps offset size) (by omega)
  rw [hl] at hs
  exact ⟨_, writeParts_eq ps m i offset size h, hs⟩

theorem writeParts_inv : ∀ (ps : List Part) {m m' : List Desc} {i : Nat} {offset size : UInt32},
    writeParts ps m i offset size = some m' → ps.length ≤ m.length - i
  | [], m, m', i, offset, size, h => Nat.zero_le _
  | p :: ps, m, m', i, offset, size, h => by
    simp only [writeParts] at h
    obtain ⟨m₁, hs, h⟩ := Option.bind_eq_some_iff.mp h
    have hlen := store_length hs
    have hi := (store_eq_some.mp hs).1
    have ih := writeParts_inv ps h
    rw [hlen] at ih
    rw [List.length_singleton] at hi
    rw [List.length_cons]
    omega

theorem shift_length {m m' : List Desc} {desc last : Nat} (h : shift m desc last = some m') :
    m'.length = m.length := by
  unfold shift at h
  split at h
  · rw [Option.some.inj h]
  · obtain ⟨m₁, hm, h⟩ := Option.bind_eq_some_iff.mp h
    obtain ⟨l, -, hs⟩ := Option.bind_eq_some_iff.mp hm
    have h1 := store_length hs
    split at h
    · unfold memset at h
      dsimp only at h
      split at h
      · exact absurd h nofun
      · rw [store_length h, h1]
    · rw [← Option.some.inj h, h1]

/-! ## the new partitions -/

/-- the explicit sizes -/
def sizes (ps : List Part) : Nat := (ps.map fun p => p.size.toNat).sum

theorem entry_explicit {p : Part} (h : p.size ≠ 0) (offset size : UInt32) :
    (entry p offset size).size = p.size := by
  unfold entry
  dsimp only
  rw [if_pos (UInt32.lt_of_le_of_ne UInt32.zero_le (Ne.symm h))]

theorem entry_rest {p : Part} (h : p.size = 0) (offset size : UInt32) :
    (entry p offset size).size = size := by
  unfold entry
  dsimp only
  rw [h, if_neg (by decide)]

/-- **The new partitions** fill the space they are given. -/
theorem entries_tiles {q : Part} (hq : q.size = 0) : ∀ (ps : List Part) (offset size : UInt32),
    (∀ p ∈ ps, p.size ≠ 0) → sizes ps ≤ size.toNat → offset.toNat + size.toNat < 4294967296 →
    Tiles offset.toNat (entries (ps ++ [q]) offset size) (offset.toNat + size.toNat)
  | [], offset, size, _, _, _ => by
    refine ⟨rfl, ?_⟩
    show offset.toNat + (entry q offset size).size.toNat = _
    rw [entry_rest hq]
  | p :: ps, offset, size, hp, hs, hlt => by
    have hsz := entry_explicit (hp p List.mem_cons_self) offset size
    have hsum : sizes (p :: ps) = p.size.toNat + sizes ps := by
      unfold sizes
      rw [List.map_cons, List.sum_cons]
    have ha : (offset + p.size).toNat = offset.toNat + p.size.toNat := by
      rw [UInt32.toNat_add]
      exact Nat.mod_eq_of_lt (by omega)
    have hb : (size - p.size).toNat = size.toNat - p.size.toNat :=
      UInt32.toNat_sub_of_le _ _ (by rw [UInt32.le_iff_toNat_le]; omega)
    have ih := entries_tiles hq ps (offset + p.size) (size - p.size)
      (fun e he => hp e (List.mem_cons_of_mem _ he)) (by omega) (by omega)
    rw [ha, hb, show offset.toNat + p.size.toNat + (size.toNat - p.size.toNat)
      = offset.toNat + size.toNat by omega] at ih
    refine ⟨rfl, ?_⟩
    show Tiles (offset.toNat + (entry p offset size).size.toNat)
      (entries (ps ++ [q]) (offset + (entry p offset size).size) (size - (entry p offset size).size)) _
    rw [hsz]
    exact ih

/-- where they start and end if they lie one behind the other -/
theorem entries_ends {q : Part} (hq : q.size = 0) : ∀ (ps : List Part) (offset size : UInt32)
    {a b : Nat}, (∀ p ∈ ps, p.size ≠ 0) → Tiles a (entries (ps ++ [q]) offset size) b →
    offset.toNat = a ∧ UInt32.ofNat b = offset + size
  | [], offset, size, a, b, _, h => by
    obtain ⟨h1, h2⟩ := h
    refine ⟨h1, ?_⟩
    have h2 : offset.toNat + (entry q offset size).size.toNat = b := h2
    rw [entry_rest hq] at h2
    rw [← h2, UInt32.ofNat_add, UInt32.ofNat_toNat, UInt32.ofNat_toNat]
  | p :: ps, offset, size, a, b, hp, h => by
    obtain ⟨h1, h2⟩ := h
    have hsz := entry_explicit (hp p List.mem_cons_self) offset size
    have h2 : Tiles (offset.toNat + (entry p offset size).size.toNat)
      (entries (ps ++ [q]) (offset + (entry p offset size).size) (size - (entry p offset size).size))
      b := h2
    rw [hsz] at h2
    obtain ⟨-, hb⟩ := entries_ends hq ps (offset + p.size) (size - p.size)
      (fun e he => hp e (List.mem_cons_of_mem _ he)) h2
    refine ⟨h1, ?_⟩
    rw [hb, UInt32.add_assoc, UInt32.add_comm p.size, UInt32.sub_add_cancel]

/-! ## the freed space -/

/-- the partitions that are replaced occupy the flash from `lo` to `hi` in some order, the others
are not in it, and the next of these starts at `top` -/
structure Freed (old : List Part) (dir : List Desc) (lo hi top : Nat) : Prop where
  tiles : ∃ l, l.Perm (dir.filter (isOld old)) ∧ (∀ d ∈ l, d.size ≠ 0) ∧ Tiles lo l hi
  clear : ∀ d ∈ dir, isOld old d = false → d.hi ≤ lo ∨ hi ≤ d.lo
  above : ∃ d ∈ dir, isOld old d = false ∧ hi ≤ d.lo ∧ d.lo = top
  least : ∀ d ∈ dir, isOld old d = false → hi ≤ d.lo → top ≤ d.lo

/-- the new partitions `es` in the slots from `first` on fill the freed space, clear of the others -/
def Filled (old : List Part) (dir : List Desc) (lo top first n : Nat) (r : Option (List Desc)) :
    Prop :=
  ∃ block, r = some block ∧ Tiles lo (slice block first n) top ∧
    ((slice block first n).Pairwise fun d e => d.hi ≤ e.lo) ∧
    ∀ e ∈ slice block first n, ∀ d ∈ dir, isOld old d = false → Apart e d

section
variable {old : List Part} {dir : List Desc} {lo hi top : Nat} (h : Freed old dir lo hi top)
include h

theorem Freed.mem {d : Desc} (hd : d ∈ dir) (ho : isOld old d = true) : lo ≤ d.lo ∧ d.lo < hi := by
  obtain ⟨l, hp, hsz, ht⟩ := h.tiles
  have hl : d ∈ l := hp.mem_iff.mpr (List.mem_filter.mpr ⟨hd, ho⟩)
  have hpos : d.size.toNat ≠ 0 := fun h0 => hsz d hl (UInt32.toNat_inj.mp h0)
  have := ht.mem d hl
  unfold Desc.hi Desc.lo at *
  omega

/-- the lowest one is where the space starts -/
theorem Freed.lowest {e : Desc} (he : e ∈ dir) (ho : isOld old e = true) :
    ∃ d ∈ dir, isOld old d = true ∧ d.lo = lo := by
  obtain ⟨l, hp, -, ht⟩ := h.tiles
  have hl : e ∈ l := hp.mem_iff.mpr (List.mem_filter.mpr ⟨he, ho⟩)
  cases l with
  | nil => exact absurd hl nofun
  | cons d l =>
    obtain ⟨hd, ho'⟩ := List.mem_filter.mp (hp.mem_iff.mp List.mem_cons_self)
    exact ⟨d, hd, ho', ht.1⟩

theorem Freed.top_lt : top < 4294967296 := by
  obtain ⟨d, -, -, -, rfl⟩ := h.above
  exact d.flashBase.toNat_lt

/-- ranges in the space are clear of the partitions that are kept -/
theorem Freed.apart {es : List Desc} (ht : Tiles lo es top) {e d : Desc} (he : e ∈ es) (hd : d ∈ dir)
    (ho : isOld old d = false) : Apart e d := by
  have hm := ht.mem e he
  unfold Apart
  rcases h.clear d hd ho with hc | hc
  · right
    omega
  · left
    exact Nat.le_trans hm.2 (h.least d hd ho hc)

end

/-! ## the whole function -/

/-- the lower and the higher of the first and the last slot are the lowest and the highest of the
partitions that are replaced -/
def Outer (old : List Part) (dir : List Desc) (first last : Desc) : Prop :=
  ∀ d ∈ dir, isOld old d = true → min first.lo last.lo ≤ d.lo ∧ d.lo ≤ max first.lo last.lo

instance (old : List Part) (dir : List Desc) (first last : Desc) :
    Decidable (Outer old dir first last) :=
  inferInstanceAs (Decidable (∀ d ∈ dir, isOld old d = true →
    min first.lo last.lo ≤ d.lo ∧ d.lo ≤ max first.lo last.lo))

theorem byBase_lo (a b : Desc) :
    (byBase a b).1.lo = min a.lo b.lo ∧ (byBase a b).2.lo = max a.lo b.lo := by
  unfold byBase Desc.lo
  by_cases h : a.flashBase > b.flashBase
  · have := UInt32.lt_iff_toNat_lt.mp h
    rw [if_pos h]
    dsimp only
    omega
  · have := UInt32.le_iff_toNat_le.mp (UInt32.not_lt.mp h)
    rw [if_neg h]
    dsimp only
    omega

section
variable {old new : List Part} {pre mid post free : List Desc} {first last : Desc}
  (h : Span old pre mid post free first last)
include h

theorem Span.first_mem : first ∈ pre ++ (mid ++ post) := by
  have := List.mem_of_head? h.head
  simp [this]

theorem Span.last_mem : last ∈ pre ++ (mid ++ post) := by
  have := List.mem_of_getLast? h.tail
  simp [this]

/-- `fis_remap` after its loops -/
theorem Span.fisRemap : fisRemap (pre ++ (mid ++ (post ++ free))) old new =
    (shift (pre ++ (mid ++ (post ++ free))) (pre.length + new.length) (pre.length + mid.length)).bind
      fun m => writeParts new m pre.length (byBase first last).1.flashBase
        (narrow (byBase first last).2.flashBase (pre ++ (mid ++ (post ++ free)))
          (Fis.scan old (pre ++ (mid ++ (post ++ free))) 0 ⟨none, none, 0⟩).offset
            - (byBase first last).1.flashBase) := by
  obtain ⟨o, hs⟩ := h.scan
  have hpos := h.length_pos
  have hd : (pre ++ (mid ++ (post ++ free)))[pre.length]? = some first := by
    rw [List.getElem?_append_right (Nat.le_refl _), Nat.sub_self, List.getElem?_append_left hpos,
      ← List.head?_eq_getElem?]
    exact h.head
  have hd' : (pre ++ (mid ++ (post ++ free)))[pre.length + mid.length - 1]? = some last := by
    rw [List.getElem?_append_right (by omega), List.getElem?_append_left (by omega),
      show pre.length + mid.length - 1 - pre.length = mid.length - 1 by omega,
      ← List.getLast?_eq_getElem?]
    exact h.tail
  unfold Fis.fisRemap
  simp only [hs, Option.bind_some, hd, hd']
  rw [show pre.length + mid.length - 1 + 1 = pre.length + mid.length by omega]

/-- the space is bounded by the partition above, if no partition that is replaced is above `base` -/
theorem Span.narrow_eq_top {lo hi top : Nat} (hf : Freed old (pre ++ (mid ++ post)) lo hi top)
    {base : UInt32} (hlo : lo ≤ base.toNat) (hhi : base.toNat < hi) :
    (narrow base (pre ++ (mid ++ (post ++ free)))
      (Fis.scan old (pre ++ (mid ++ (post ++ free))) 0 ⟨none, none, 0⟩).offset).toNat = top ↔
    ∀ d ∈ pre ++ (mid ++ post), isOld old d = true → d.lo ≤ base.toNat := by
  obtain ⟨r, hr, hro, hrhi, hrtop⟩ := hf.above
  obtain ⟨⟨d, hd, hbd, hv⟩, hmin⟩ := narrow_scan old
    (show r ∈ Fis.used (pre ++ (mid ++ (post ++ free))) by rw [h.used]; exact hr)
    (show base < r.flashBase from UInt32.lt_iff_toNat_lt.mpr (Nat.lt_of_lt_of_le hhi hrhi))
  rw [h.used] at hd hmin
  rw [hv] at hmin ⊢
  have hbd : base.toNat < d.lo := UInt32.lt_iff_toNat_lt.mp hbd
  have hmin : ∀ e ∈ pre ++ (mid ++ post), base.toNat < e.lo → d.lo ≤ e.lo := fun e he hb =>
    UInt32.le_iff_toNat_le.mp (hmin e he (UInt32.lt_iff_toNat_lt.mpr hb))
  have hdr := hmin r hr (by omega)
  constructor
  · intro htop e he ho
    have htop : d.lo = top := htop
    by_contra hlt
    have := hmin e he (by omega)
    have := (hf.mem he ho).2
    omega
  · intro hall
    show d.lo = top
    cases ho : isOld old d with
    | true =>
      have := hall d hd ho
      omega
    | false =>
      have hle : d.lo ≤ d.hi := Nat.le_add_right _ _
      have := hf.least d hd ho ((hf.clear d hd ho).resolve_left (by omega))
      omega

/-- **The new partitions fill the freed space** exactly if there is room for them in the directory,
they are not fewer than the slots they replace, and the first and the last of these slots are the
lowest and the highest partition, in one order or the other. -/
theorem fisRemap_tiles_iff {lo hi top : Nat} (hf : Freed old (pre ++ (mid ++ post)) lo hi top)
    {ps : List Part} {q : Part} (hps : ∀ p ∈ ps, p.size ≠ 0) (hsum : sizes ps ≤ hi - lo)
    (hq : q.size = 0) :
    Filled old (pre ++ (mid ++ post)) lo top pre.length (ps.length + 1)
      (Fis.fisRemap (pre ++ (mid ++ (post ++ free))) old (ps ++ [q])) ↔
    mid.length ≤ ps.length + 1 ∧ ps.length + 1 ≤ mid.length + post.length + free.length ∧
      Outer old (pre ++ (mid ++ post)) first last := by
  obtain ⟨hb1, hb2⟩ := byBase_lo first last
  have hm1 := hf.mem h.first_mem h.old_first
  have hm2 := hf.mem h.last_mem h.old_last
  have hpos := h.length_pos
  have hlen : (pre ++ (mid ++ (post ++ free))).length
      = pre.length + mid.length + post.length + free.length := by
    simp only [List.length_append]
    omega
  have hnew : (ps ++ [q]).length = ps.length + 1 := by simp
  have htop := h.narrow_eq_top hf
    (show lo ≤ (byBase first last).2.flashBase.toNat by show lo ≤ (byBase first last).2.lo; omega)
    (by show (byBase first last).2.lo < hi; omega)
  rw [h.fisRemap, hnew]
  generalize hv : narrow (byBase first last).2.flashBase (pre ++ (mid ++ (post ++ free)))
    (Fis.scan old (pre ++ (mid ++ (post ++ free))) 0 ⟨none, none, 0⟩).offset = v at htop ⊢
  generalize hfb : (byBase first last).1.flashBase = base
  have hbase : base.toNat = min first.lo last.lo := by rw [← hfb]; exact hb1
  have hmax : (byBase first last).2.flashBase.toNat = max first.lo last.lo := hb2
  rw [hmax] at htop
  constructor
  · rintro ⟨block, hr, ht, -, -⟩
    obtain ⟨m, hshift, hw⟩ := Option.bind_eq_some_iff.mp hr
    have hroom := writeParts_inv _ hw
    rw [shift_length hshift, hlen, hnew] at hroom
    have hfew : mid.length ≤ ps.length + 1 := by
      by_contra hlt
      rw [shift_shrink (by omega) (by omega)] at hshift
      exact absurd hshift nofun
    refine ⟨hfew, by omega, ?_⟩
    -- the slots hold the entries, and these start at `base` and end at `v`
    have hml : m.length = pre.length + mid.length + post.length + free.length := by
      rw [shift_length hshift, hlen]
    obtain ⟨m', hw', hes⟩ := writeParts_slice (ps ++ [q]) m (i := pre.length) base (v - base) (by omega)
    rw [hw] at hw'
    rw [hnew, ← Option.some.inj hw'] at hes
    rw [hes] at ht
    obtain ⟨h1, h2⟩ := entries_ends hq ps base (v - base) hps ht
    rw [UInt32.add_comm, UInt32.sub_add_cancel] at h2
    have hvt : v.toNat = top := by
      rw [← h2, UInt32.toNat_ofNat_of_lt' hf.top_lt]
    intro d hd ho
    have := htop.mp hvt d hd ho
    have := (hf.mem hd ho).1
    omega
  · rintro ⟨hfew, hroom, houter⟩
    obtain ⟨e, he, heo, hlow⟩ := hf.lowest h.first_mem h.old_first
    have hlo : base.toNat = lo := by
      have := (houter e he heo).1
      omega
    have hvt : v.toNat = top := htop.mpr fun d hd ho => (houter d hd ho).2
    obtain ⟨r, -, -, hrhi, hrtop⟩ := hf.above
    have hsize : (v - base).toNat = top - lo := by
      rw [UInt32.toNat_sub_of_le _ _ (by rw [UInt32.le_iff_toNat_le]; omega), hvt, hlo]
    have ht := entries_tiles hq ps base (v - base) hps (by omega) (by
      have := hf.top_lt
      omega)
    rw [hlo, hsize, show lo + (top - lo) = top by omega] at ht
    obtain ⟨gap, hgap, hshift⟩ := @shift_grow pre mid [] (post ++ free) (ps.length + 1) hfew
      (by rw [List.length_append]; omega)
    rw [List.nil_append] at hshift
    rw [hshift, Option.bind_some]
    generalize hm : pre ++ (gap ++ ([] ++ List.take _ (post ++ free))) = m
    obtain ⟨block, hw, hes⟩ := writeParts_slice (ps ++ [q]) m (i := pre.length) base (v - base) (by
        rw [← hm, hnew]
        simp only [List.length_append, hgap]
        omega)
    rw [hnew] at hes
    refine ⟨block, hw, ?_⟩
    rw [hes]
    exact ⟨ht, ht.pairwise, fun e he d hd ho => hf.apart ht he hd ho⟩

end

theorem letter_span : Span [letterPart 66 0, letterPart 67 0] [letter 65 0]
    [letter 66 0x10000, letter 67 0x20000] [letter 68 0x30000] [.erased, .erased]
    (letter 66 0x10000) (letter 67 0x20000) :=
  ⟨letter_layout.used_pre, by decide, letter_layout.used_post, rfl, rfl, by decide, by decide,
    letter_layout.free_head⟩

theorem letter_freed : Freed [letterPart 66 0, letterPart 67 0] [letter 65 0, letter 66 0x10000,
    letter 67 0x20000, letter 68 0x30000] 0x10000 0x30000 0x30000 :=
  ⟨⟨_, List.Perm.refl _, by decide, by decide⟩, by decide,
    ⟨letter 68 0x30000, by simp, by decide, by decide, by decide⟩, by decide⟩

/-- two partitions become three -/
theorem fisRemap_tiles_grow : Filled [letterPart 66 0, letterPart 67 0] [letter 65 0,
    letter 66 0x10000, letter 67 0x20000, letter 68 0x30000] 0x10000 0x30000 1 3
    (fisRemap [letter 65 0, letter 66 0x10000, letter 67 0x20000, letter 68 0x30000, .erased, .erased]
      [letterPart 66 0, letterPart 67 0] [letterPart 88 0x8000, letterPart 89 0x8000,
        letterPart 90 0]) :=
  (fisRemap_tiles_iff letter_span letter_freed
    (show ∀ p ∈ [letterPart 88 0x8000, letterPart 89 0x8000], p.size ≠ 0 by decide) (by decide) rfl).mpr ⟨by decide, by decide, by decide⟩

/-- the lowest partition is between the first and the last slot -/
theorem fisRemap_order : Span [letterPart 66 0, letterPart 67 0, letterPart 68 0] [letter 65 0]
      [letter 66 0x20000, letter 67 0x10000, letter 68 0x30000] [letter 69 0x40000] [.erased]
      (letter 66 0x20000) (letter 68 0x30000) ∧
    Freed [letterPart 66 0, letterPart 67 0, letterPart 68 0] [letter 65 0, letter 66 0x20000,
      letter 67 0x10000, letter 68 0x30000, letter 69 0x40000] 0x10000 0x40000 0x40000 ∧
    ¬ Filled [letterPart 66 0, letterPart 67 0, letterPart 68 0] [letter 65 0, letter 66 0x20000,
      letter 67 0x10000, letter 68 0x30000, letter 69 0x40000] 0x10000 0x40000 1 3
      (fisRemap [letter 65 0, letter 66 0x20000, letter 67 0x10000, letter 68 0x30000,
        letter 69 0x40000, .erased] [letterPart 66 0, letterPart 67 0, letterPart 68 0]
        [letterPart 88 0x10000, letterPart 89 0x10000, letterPart 90 0]) := by
  refine ⟨⟨by decide, by decide, by decide, rfl, rfl, by decide, by decide, ?_⟩, ⟨⟨[letter 67 0x10000,
    letter 66 0x20000, letter 68 0x30000], List.Perm.swap _ _ _, by decide, by decide⟩, by decide,
    ⟨letter 69 0x40000, by simp, by decide, by decide, by decide⟩, by decide⟩, ?_⟩
  · intro d hd
    rw [← Option.some.inj hd]
    decide
  · rintro ⟨block, hr, ht, -⟩
    have hstart : (fisRemap [letter 65 0, letter 66 0x20000, letter 67 0x10000, letter 68 0x30000,
        letter 69 0x40000, .erased] [letterPart 66 0, letterPart 67 0, letterPart 68 0]
        [letterPart 88 0x10000, letterPart 89 0x10000, letterPart 90 0]).map
          (fun b => (slice b 1 3).map Desc.lo) = some [0x20000, 0x30000, 0x40000] := by decide
    rw [hr] at hstart
    have hstart : (slice block 1 3).map Desc.lo = [0x20000, 0x30000, 0x40000] :=
      Option.some.inj hstart
    cases hs : slice block 1 3 with
    | nil =>
      rw [hs] at hstart
      exact absurd hstart nofun
    | cons d ds =>
      rw [hs] at ht hstart
      have h1 := ht.1
      rw [List.map_cons, List.cons.injEq] at hstart
      omega

end Fis
