import Firmware.Mtd.Place

/-!
# mtd: `mtd_write` with `-p`

`part_offset` moves the file position, and with it the writes; the erases are placed by the
counter `e`, which starts at 0.  `k` is the offset in blocks.

* `Shifted.block`            one block of the image: block `j` is erased, block `k + j` is written;
* `Shifted.run`              the same for all of them;
* `rangeWritten_iff`         on a device without flaws the image goes to an erased range exactly
                             when the offset is 0, or there is nothing to write.
-/

set_option linter.unusedVariables false

namespace Mtd
open Img Word CInt Machine Blocks

variable {E : Nat}

/-! ## the property -/

/-- no bad blocks, and no operation fails -/
def Chip.Flawless (c : Chip) : Prop :=
  ∀ b, c.isBad b = false ∧ c.eraseFails b = false ∧ c.writeFails b = false

/-- the image, padded with `0xff` to `n` blocks, stands at block `k`; these blocks were erased, each
before it was written, and the others were left alone -/
structure RangeWritten (d d' : Dev E) (k n : Nat) (img : List UInt8) : Prop where
  image : ∃ m, m < E ∧ img.length + m = n * E ∧
    slice d'.mem (k * E) (n * E) = img ++ List.replicate m 0xff
  erased : ∀ b, .erase b ∈ d'.log.drop d.log.length ↔ k ≤ b ∧ b < k + n
  first : ∀ pre b post, d'.log = d.log ++ (pre ++ .write b :: post) → .erase b ∈ pre
  rest : ∀ b, ¬ (k ≤ b ∧ b < k + n) → d'.block b = d.block b

/-! ## one block -/

/-- at the top of the loop, `j` blocks done: both counters are at block `j`, the file position is
`k` blocks further on -/
structure Shifted (k : Nat) (s : St E) (j : Nat) : Prop where
  pc : s.pc = .fill
  buf : s.buf.length = E
  buflen : s.buflen ≤ E
  w : s.w = (j * E : Nat)
  e : s.e = (j * E : Nat)
  bads : s.skipBadBlocks = 0
  pos : s.dev.pos = (k + j) * E
  skip : s.skip ≤ 0
  offset : s.offset = 0
  jffs2file : s.jffs2file = none

theorem shifted_start {c : Cfg E} {k : Nat} (hp : c.partOffset = k * E) (d : Dev E)
    {buf : List UInt8} {buflen : Nat} (hbuf : buf.length = E) (hlen : buflen ≤ E)
    (img : List UInt8) (jst : Jst) : Shifted k (start c d [] buf buflen img none jst) 0 := by
  refine ⟨rfl, hbuf, hlen, ?_, ?_, rfl, hp, Int.le_refl 0, rfl, rfl⟩
  · rw [Nat.zero_mul]
    rfl
  · rw [Nat.zero_mul]
    rfl

/-- **One block of the image**: the erase and the write are `k` blocks apart. -/
theorem Shifted.block {c : Cfg E} (hc : c.noErase = false) {k j : Nat} {s : St E}
    (h : Shifted k s j) (hne : s.pending ≠ []) (hf : s.dev.chip.Flawless)
    (hj : k + j < s.dev.chip.reach E) :
    ∃ s', Leads (step c) s s' ∧ Shifted k s' (j + 1) ∧ s'.pending = s.pending.drop E ∧
      s'.dev.chip = s.dev.chip ∧ s'.dev.log = s.dev.log ++ [.erase j, .write (k + j)] ∧
      Keeps s s' := by
  have hE := s.dev.erasesize
  have hle := s.dev.chip.reach_le E
  have hskip := h.skip
  have hjE : ((j + 1) * E : Nat) = j * E + E := by rw [Nat.add_mul, Nat.one_mul]
  obtain ⟨hbad, hef, -⟩ := hf j
  obtain ⟨reads, s₁, l₁, b₁⟩ := fill_block c h.pc h.buf h.buflen hne
  have hbl : (padTo E (s.pending.take E)).length = E := padTo_take_length E _
  generalize padTo E (s.pending.take E) = B at b₁ hbl
  -- the block goes to the erase loop
  let s₂ : St E := { s with pc := .erase, buf := B, buflen := E, img := s.pending.drop E,
                            reads := reads, jffs2file := none }
  have t₁ : step c s₁ = .inl s₂ := by
    rw [b₁]
    unfold blockStep
    simp only [h.jffs2file]
    rw [if_neg (by omega)]
  -- block `j` is erased, block `k + j` is written
  obtain ⟨d₁, e₁, c₁, p₁, g₁, -⟩ := eraseBlock_some s.dev (b := j) (by omega) hef
  obtain ⟨d₂, e₂, c₂, p₂, g₂, -⟩ := write_over d₁ (b := k + j) (by rw [c₁]; omega)
    (by rw [c₁]; exact (hf (k + j)).2.2) (p₁.trans h.pos) hbl
  have hw : s.w = s.e - s.skipBadBlocks := by
    rw [h.w, h.e, h.bads]
    omega
  have hr : j < s.dev.chip.reach E := by omega
  have hl : Leads (step c) s₂ { s₂ with
      pc := .fill, dev := d₂, w := s.w + E, e := s.e + E, buflen := 0 } :=
    @erase_write_leads E c hc s₂ j rfl hbl rfl h.offset hw h.e hr hbad d₁ d₂ e₁ e₂
  refine ⟨_, l₁.trans (.head t₁ hl), ?_, ?_, c₂.trans c₁, ?_, ⟨rfl, rfl, h.jffs2file.symm, rfl⟩⟩
  · refine ⟨rfl, hbl, Nat.zero_le E, ?_, ?_, h.bads, p₂, h.skip, h.offset, rfl⟩
    · show s.w + E = _
      rw [h.w, hjE]
      omega
    · show s.e + E = _
      rw [h.e, hjE]
      omega
  · show B.take 0 ++ s.pending.drop E = _
    rw [List.take_zero, List.nil_append]
  · show d₂.log = _
    rw [g₂, g₁, List.append_assoc]
    rfl

/-! ## all of them -/

/-- **The run**: block `j` erased and block `k + j` written, for every block of the image. -/
theorem Shifted.run {c : Cfg E} (hc : c.noErase = false) {k : Nat} : ∀ (n j : Nat) (s : St E),
    Shifted k s j → (padBlocks E s.pending).length = n → s.dev.chip.Flawless →
    k + j + n ≤ s.dev.chip.reach E →
    ∃ s', Leads (step c) s s' ∧ Shifted k s' (j + n) ∧ s'.pending = [] ∧
      s'.dev.log = s.dev.log
        ++ (List.range' j n).flatMap (fun b => [.erase b, .write (k + b)]) ∧ Keeps s s' := by
  intro n
  induction n with
  | zero =>
    intro j s h hn hf hfit
    have hnil : s.pending = [] := by
      by_contra hne
      rw [padBlocks_cons s.dev.erasesize hne, List.length_cons] at hn
      omega
    exact ⟨s, .refl s, h, hnil, (List.append_nil _).symm, rfl, rfl, rfl, rfl⟩
  | succ n ih =>
    intro j s h hn hf hfit
    have hne : s.pending ≠ [] := by
      intro e
      rw [e] at hn
      exact absurd hn (by simp [padBlocks_nil])
    rw [padBlocks_cons s.dev.erasesize hne, List.length_cons] at hn
    obtain ⟨s₁, l₁, h₁, hp₁, hc₁, hg₁, k₁⟩ := h.block hc hne hf (by omega)
    obtain ⟨s', l', h', hp', hg', k'⟩ := ih (j + 1) s₁ h₁ (by rw [hp₁]; omega) (by rwa [hc₁])
      (by rw [hc₁]; omega)
    rw [show j + 1 + n = j + (n + 1) by omega] at h'
    refine ⟨s', l₁.trans l', h', hp', ?_, k₁.trans k'⟩
    rw [hg', hg₁, List.append_assoc, List.range'_succ, List.flatMap_cons]

/-- what `mtd_write` returns, and what it did on the way -/
theorem shifted_ends {c : Cfg E} (hc : c.noErase = false) {k : Nat} (hp : c.partOffset = k * E)
    (d : Dev E) (hf : d.chip.Flawless) {buf : List UInt8} {buflen : Nat} (hbuf : buf.length = E)
    (hlen : buflen ≤ E) (img : List UInt8) (jst : Jst)
    (hfit : k + (padBlocks E (buf.take buflen ++ img)).length ≤ d.chip.reach E) :
    ∃ d', Ends (step c) (start c d [] buf buflen img none jst) (.ret [d']) ∧
      d'.log = d.log ++ (List.range' 0 (padBlocks E (buf.take buflen ++ img)).length).flatMap
        (fun b => [.erase b, .write (k + b)]) := by
  obtain ⟨s', hl, h', hnil, hg, hk⟩ := (shifted_start hp d hbuf hlen img jst).run hc _ 0 _ rfl hf
    (by rw [Nat.add_zero]; exact hfit)
  refine ⟨s'.dev, ?_, hg⟩
  have he := hl.ends_iff.mpr (fill_end c h'.pc h'.buf h'.buflen hnil)
  rw [finish_plain (by rw [hk.replaced]; rfl)] at he
  unfold St.devs at he
  rw [hk.left, hk.next] at he
  exact he

/-! ## the range -/

theorem slice_blocks (d : Dev E) (k : Nat) : ∀ n, k + n ≤ d.chip.nblocks →
    slice d.mem (k * E) (n * E) = ((List.range' k n).map d.block).flatten := by
  intro n
  induction n generalizing k with
  | zero =>
    intro _
    rw [Nat.zero_mul]
    rfl
  | succ n ih =>
    intro h
    have e : slice d.mem (k * E) ((n + 1) * E)
        = d.block k ++ slice d.mem ((k + 1) * E) (n * E) := by
      show (d.mem.drop (k * E)).take _ = (d.mem.drop (k * E)).take E ++ (d.mem.drop _).take (n * E)
      rw [Nat.add_mul, Nat.one_mul, Nat.add_comm (n * E), List.take_add, List.drop_drop,
        Nat.add_mul, Nat.one_mul]
    rw [e, ih (k + 1) (by omega), List.range'_succ, List.map_cons, List.flatten_cons]

theorem good_flawless {c : Chip} (hf : c.Flawless) (b t : Nat) :
    c.good b t = List.range' b (t - b) := by
  unfold Chip.good
  refine List.filter_eq_self.mpr fun x _ => ?_
  rw [(hf x).1]
  rfl

/-- blocks from 0 on, erased and written one after the other -/
theorem Wrote.range {d d' : Dev E} {n : Nat} {img : List UInt8}
    (h : Wrote d d' (List.range' 0 n) (padBlocks E img)) (hn : n ≤ d.chip.nblocks) :
    RangeWritten d d' 0 n img := by
  have hl : (padBlocks E img).length = n := by rw [← h.data, List.length_map, List.length_range']
  have hmem : ∀ b, b ∈ List.range' 0 n ↔ 0 ≤ b ∧ b < 0 + n := fun b => List.mem_range'_1
  refine ⟨?_, fun b => ?_, fun pre b post he => ?_, fun b hb => h.rest b fun hm => hb ((hmem b).mp hm)⟩
  · obtain ⟨m, h1, h2, h3⟩ := padBlocks_flatten d.erasesize img
    refine ⟨m, h1, by rw [h2, hl], ?_⟩
    rw [← h3, ← h.data]
    exact slice_blocks d' 0 n (by rw [h.chip]; omega)
  · rw [h.log, List.drop_left, List.mem_flatMap, ← hmem]
    constructor
    · rintro ⟨a, ha, he⟩
      simp only [List.mem_cons, Event.erase.injEq, reduceCtorEq, List.not_mem_nil, or_false] at he
      exact he ▸ ha
    · exact fun hb => ⟨b, hb, List.mem_cons_self⟩
  · rw [h.log] at he
    exact erase_before_write (List.append_cancel_left he)

/-- nothing written, nothing erased -/
theorem rangeWritten_nil (c : Cfg E) (d : Dev E) (k : Nat) :
    RangeWritten d (openDev c d) k 0 [] := by
  refine ⟨⟨0, d.erasesize, by simp, ?_⟩, fun b => ?_, fun pre b post he => ?_, fun b _ => rfl⟩
  · rw [Nat.zero_mul]
    rfl
  · rw [show (openDev c d).log = d.log from rfl, List.drop_length]
    refine iff_of_false List.not_mem_nil ?_
    rintro ⟨h1, h2⟩
    omega
  · have h := List.self_eq_append_right.mp (he : d.log = _)
    exact absurd (List.append_eq_nil_iff.mp h).2 (by simp)

/-- with an offset the first erase is outside the range -/
theorem RangeWritten.offset_zero {d d' : Dev E} {k n : Nat} {img : List UInt8}
    (h : RangeWritten d d' k n img) (hn : n ≠ 0)
    (hg : d'.log = d.log ++ (List.range' 0 n).flatMap (fun b => [.erase b, .write (k + b)])) :
    k = 0 := by
  obtain ⟨m, rfl⟩ := Nat.exists_eq_succ_of_ne_zero hn
  have h0 := (h.erased 0).mp (by
    rw [hg, List.drop_left, List.range'_succ, List.flatMap_cons]
    exact List.mem_cons_self)
  exact Nat.le_zero.mp h0.1

section
variable {c : Cfg E} (hc : c.noErase = false) {k n : Nat} (hp : c.partOffset = k * E) (d : Dev E)
  (hf : d.chip.Flawless) {buf : List UInt8} {buflen : Nat} (hbuf : buf.length = E)
  (hlen : buflen ≤ E) (img : List UInt8) (jst : Jst)
  (hn : (padBlocks E (buf.take buflen ++ img)).length = n)
include hc hp hf hbuf hlen hn

theorem offset_of_written (hfit : k + n ≤ d.chip.reach E) {d' : Dev E}
    (hd : Ends (step c) (start c d [] buf buflen img none jst) (.ret [d']))
    (hr : RangeWritten d d' k n (buf.take buflen ++ img)) :
    k = 0 ∨ buf.take buflen ++ img = [] := by
  subst hn
  obtain ⟨d₁, he, hg⟩ := shifted_ends hc hp d hf hbuf hlen img jst hfit
  obtain rfl : d₁ = d' := by
    have := he.unique hd
    simpa using this
  by_cases hne : buf.take buflen ++ img = []
  · exact .inr hne
  · refine .inl (hr.offset_zero ?_ hg)
    rw [padBlocks_cons d.erasesize hne, List.length_cons]
    exact Nat.succ_ne_zero _

theorem written_of_zero (h0 : k = 0) (hfit : n ≤ d.chip.reach E) :
    ∃ d', Ends (step c) (start c d [] buf buflen img none jst) (.ret [d']) ∧
      RangeWritten d d' k n (buf.take buflen ++ img) := by
  subst h0
  have hle := d.chip.reach_le E
  have hgood := good_flawless hf 0 (d.chip.reach E)
  rw [Nat.sub_zero] at hgood
  have hrun : Comes c (start c d [] buf buflen img none jst)
      (padBlocks E (buf.take buflen ++ img)) 0 (d.chip.reach E) :=
    fill_run hc (Nat.zero_le _)
      (inFill_start (by rw [hp, Nat.zero_mul]) d [] hbuf hlen img none jst) rfl
      ⟨Nat.le_refl _, fun b _ _ => (hf b).2⟩
  rcases hrun with ⟨-, d', hw, he⟩ | ⟨hfull, -⟩
  · refine ⟨d', he, ?_⟩
    rw [hn] at hw
    have hw' : Wrote d d' ((d.chip.good 0 (d.chip.reach E)).take n)
        (padBlocks E (buf.take buflen ++ img)) := ⟨hw.chip, hw.data, hw.rest, hw.log⟩
    rw [hgood, List.take_range'_of_length_ge hfit] at hw'
    exact hw'.range (by omega)
  · have h : (d.chip.good 0 (d.chip.reach E)).length < _ := hfull
    rw [hgood, List.length_range', hn] at h
    omega

end

/-- **`-p`**: on a flawless device the image goes to a range of erased blocks exactly when that
range starts at 0, or there is nothing to write. -/
theorem rangeWritten_iff {c : Cfg E} (hc : c.noErase = false) {k : Nat}
    (hp : c.partOffset = k * E) (d : Dev E) (hf : d.chip.Flawless) {buf : List UInt8}
    {buflen : Nat} (hbuf : buf.length = E) (hlen : buflen ≤ E) (img : List UInt8) (jst : Jst)
    {n : Nat} (hn : (padBlocks E (buf.take buflen ++ img)).length = n)
    (hfit : k + n ≤ d.chip.reach E) :
    (∃ d', Ends (step c) (start c d [] buf buflen img none jst) (.ret [d']) ∧
      RangeWritten d d' k n (buf.take buflen ++ img)) ↔
    k = 0 ∨ buf.take buflen ++ img = [] := by
  constructor
  · rintro ⟨d', hd, hr⟩
    exact offset_of_written hc hp d hf hbuf hlen img jst hn hfit hd hr
  · rintro (h0 | hnil)
    · exact written_of_zero hc hp d hf hbuf hlen img jst hn h0 (by omega)
    · rw [hnil, padBlocks_nil] at hn
      subst hn
      refine ⟨openDev c d, fill_end c rfl hbuf hlen hnil, ?_⟩
      rw [hnil]
      exact rangeWritten_nil c d k

/-- four good blocks -/
def flawlessDev : Dev 4 :=
  smallDev ⟨4, false, fun _ => false, fun _ => false, fun _ => false⟩ (by decide)

/-- six bytes from the first block on -/
theorem rangeWritten_iff_start : ∃ d',
    Ends (step (plainCfg 4)) (start (plainCfg 4) flawlessDev [] [1, 2, 3, 4] 4 [5, 6] none jst0)
      (.ret [d']) ∧ RangeWritten flawlessDev d' 0 2 [1, 2, 3, 4, 5, 6] :=
  (rangeWritten_iff rfl rfl flawlessDev (fun _ => ⟨rfl, rfl, rfl⟩) rfl (Nat.le_refl 4) [5, 6] jst0
    rfl (by decide)).mpr (Or.inl rfl)

/-- `-p` with one erase block of four bytes -/
def offsetCfg : Cfg 4 := { plainCfg 4 with partOffset := 4 }

/-- six bytes for the second block: the first one is erased, the second one is not -/
theorem rangeWritten_second : ¬ ∃ d',
    Ends (step offsetCfg) (start offsetCfg flawlessDev [] [1, 2, 3, 4] 4 [5, 6] none jst0)
      (.ret [d']) ∧ RangeWritten flawlessDev d' 1 2 [1, 2, 3, 4, 5, 6] := by
  rintro ⟨d', hd, hr⟩
  have h := offset_of_written (k := 1) rfl rfl flawlessDev (fun _ => ⟨rfl, rfl, rfl⟩) rfl
    (Nat.le_refl 4) [5, 6] jst0 rfl (by decide) hd hr
  exact absurd h (by decide)

end Mtd
