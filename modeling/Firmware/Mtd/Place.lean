import Firmware.Mtd.Write

/-!
# mtd: where the blocks of an image go

* `padBlocks`      the image cut into erase blocks, the last one padded with `0xff`;
* `fill_block`     from the top of the loop to the next block of the image;
* `InErase`        the invariant in front of the erase loop: the file position is at `e`, and `e` is
                   ahead of `w` by the bad blocks skipped;
* `InErase.place`  one block of the image goes to the next good block;
* `Chip.good`, `Chip.stop`   the good blocks, and the first one that cannot be erased;
* `device_run`     what a device receives;
* `write_places`   one device without failures: the image on its good blocks, in order.
-/

set_option linter.unusedVariables false

namespace Mtd
open Img Word CInt Machine Blocks

variable {E : Nat}

/-! ## the image in blocks -/

def padBlocks (E : Nat) (img : List UInt8) : List (List UInt8) := (blocks E img).map (padTo E)

theorem padBlocks_nil : padBlocks E [] = [] := rfl

theorem padBlocks_cons (hE : 0 < E) {img : List UInt8} (h : img ≠ []) :
    padBlocks E img = padTo E (img.take E) :: padBlocks E (img.drop E) := by
  unfold padBlocks
  rw [blocks_cons E hE h, List.map_cons]

theorem padTo_take_length (E : Nat) (l : List UInt8) : (padTo E (l.take E)).length = E := by
  apply padTo_length
  rw [List.length_take]
  omega

/-- the first block of an image -/
theorem padBlocks_eq_cons (hE : 0 < E) {img b : List UInt8} {bs : List (List UInt8)}
    (h : padBlocks E img = b :: bs) :
    img ≠ [] ∧ padTo E (img.take E) = b ∧ padBlocks E (img.drop E) = bs := by
  have hne : img ≠ [] := by
    rintro rfl
    cases h
  rw [padBlocks_cons hE hne] at h
  exact ⟨hne, List.cons.inj h⟩

/-- a block already in the buffer, in front of the rest of the image -/
theorem padBlocks_append (hE : 0 < E) {b img : List UInt8} (hb : b.length = E) :
    padBlocks E (b ++ img) = b :: padBlocks E img := by
  have hne : b ++ img ≠ [] := by
    intro e
    rw [(List.append_eq_nil_iff.mp e).1] at hb
    simp at hb
    omega
  have h1 : (b ++ img).take E = b := by rw [← hb, List.take_left]
  have h2 : (b ++ img).drop E = img := by rw [← hb, List.drop_left]
  rw [padBlocks_cons hE hne, h1, h2, padTo_of_length hb]

/-- the blocks hold the image and less than a block of padding -/
theorem padBlocks_flatten (hE : 0 < E) (img : List UInt8) : ∃ k, k < E ∧
    img.length + k = (padBlocks E img).length * E ∧
    (padBlocks E img).flatten = img ++ List.replicate k 0xff := by
  induction hn : img.length using Nat.strongRecOn generalizing img with
  | ind n ih =>
    by_cases hne : img = []
    · refine ⟨0, hE, ?_, ?_⟩
      · rw [← hn, hne, padBlocks_nil, List.length_nil, List.length_nil, Nat.zero_mul]
      · rw [hne]
        rfl
    · have hpos := List.length_pos_iff.mpr hne
      by_cases hle : img.length ≤ E
      · refine ⟨E - img.length, by omega, ?_, ?_⟩
        · rw [padBlocks_cons hE hne, List.drop_eq_nil_of_le hle, padBlocks_nil,
            List.length_singleton]
          omega
        · rw [padBlocks_cons hE hne, List.drop_eq_nil_of_le hle, padBlocks_nil,
            List.take_of_length_le hle, List.flatten_cons, List.flatten_nil, List.append_nil]
          rfl
      · have hd : (img.drop E).length = img.length - E := List.length_drop
        obtain ⟨k, hk, h1, h2⟩ := ih _ (by omega) (img.drop E) rfl
        have ht : (img.take E).length = E := by rw [List.length_take]; omega
        refine ⟨k, hk, ?_, ?_⟩
        · rw [padBlocks_cons hE hne, List.length_cons, Nat.add_mul, Nat.one_mul, ← h1]
          omega
        · rw [padBlocks_cons hE hne, List.flatten_cons, h2, padTo_of_length ht,
            ← List.append_assoc, List.take_append_drop]

/-! ## reading -/

/-- the bytes still to be written -/
def St.pending (s : St E) : List UInt8 := s.buf.take s.buflen ++ s.img

/-- the read loop: the buffer holds the next bytes of the image -/
theorem fill_leads (c : Cfg E) : ∀ (k : Nat) (s : St E), E - s.buflen = k → s.pc = .fill →
    s.buf.length = E → s.buflen ≤ E →
    ∃ buf reads, buf.length = E ∧
      buf.take (min E (s.buf.take s.buflen ++ s.img).length)
        = (s.buf.take s.buflen ++ s.img).take E ∧
      Leads (step c) s { s with
        pc := .check, buf := buf, buflen := min E (s.buf.take s.buflen ++ s.img).length,
        img := (s.buf.take s.buflen ++ s.img).drop E, reads := reads } := by
  intro k
  induction k using Nat.strongRecOn with
  | ind k ih =>
    intro s hk hpc hbuf hlen
    have htl : (s.buf.take s.buflen).length = s.buflen := by rw [List.length_take]; omega
    by_cases hfull : s.buflen = E
    · -- a full block is there already
      have hs : step c s = .inl { s with pc := .check } := by
        unfold step fillStep
        rw [hpc]
        simp only
        rw [if_neg (by omega)]
      have e1 : min E (s.buf.take s.buflen ++ s.img).length = s.buflen := by
        rw [List.length_append, htl]
        omega
      have hall : s.buf.take s.buflen = s.buf := List.take_of_length_le (by omega)
      have e2 : (s.buf.take s.buflen ++ s.img).take E = s.buf := by
        rw [hall, List.take_append_of_le_length (by omega), List.take_of_length_le (by omega)]
      have e3 : (s.buf.take s.buflen ++ s.img).drop E = s.img := by
        rw [hall, List.drop_append_of_le_length (by omega), List.drop_eq_nil_of_le (by omega)]
        rfl
      refine ⟨s.buf, s.reads, hbuf, ?_, Leads.one ?_⟩
      · rw [e1, e2, hall]
      · rw [hs, e1, e3]
    · by_cases himg : s.img = []
      · have hs : step c s = .inl { s with pc := .check } := by
          unfold step fillStep
          rw [hpc]
          simp only
          rw [if_pos (by omega), himg, List.length_nil, Nat.min_zero, if_pos rfl]
        have e1 : min E (s.buf.take s.buflen ++ s.img).length = s.buflen := by
          rw [himg, List.append_nil, htl]
          omega
        have e2 : (s.buf.take s.buflen ++ s.img).take E = s.buf.take s.buflen := by
          rw [himg, List.append_nil, List.take_take, Nat.min_eq_right (by omega)]
        have e3 : (s.buf.take s.buflen ++ s.img).drop E = s.img := by
          rw [himg, List.append_nil]
          exact List.drop_eq_nil_of_le (by omega)
        refine ⟨s.buf, s.reads, hbuf, ?_, Leads.one ?_⟩
        · rw [e1, e2]
        · rw [hs, e1, e3]
      · -- `n` bytes are read
        have hpos : 0 < s.img.length := List.length_pos_iff.mpr himg
        generalize hn : min (min (c.sched s.reads + 1) (E - s.buflen)) s.img.length = n
        have hst : store s.buf s.buflen (s.img.take n)
            = some (poke s.buf s.buflen (s.img.take n)) :=
          store_eq_some.mpr ⟨by rw [List.length_take]; omega, rfl⟩
        have hs : step c s = .inl { s with
            buf := poke s.buf s.buflen (s.img.take n), buflen := s.buflen + n,
            img := s.img.drop n, reads := s.reads + 1 } := by
          unfold step fillStep
          rw [hpc]
          simp only
          rw [if_pos (by omega), hn, if_neg (by omega), hst]
        have hnl : (s.img.take n).length = n := by rw [List.length_take]; omega
        have hI : (poke s.buf s.buflen (s.img.take n)).take (s.buflen + n) ++ s.img.drop n
            = s.buf.take s.buflen ++ s.img := by
          unfold poke
          rw [← List.append_assoc, List.take_append_of_le_length
            (by rw [List.length_append, htl, hnl]), List.take_of_length_le
            (by rw [List.length_append, htl, hnl]), List.append_assoc, List.take_append_drop]
        obtain ⟨buf, reads, h1, h2, h3⟩ := ih (E - (s.buflen + n)) (by omega) { s with
            buf := poke s.buf s.buflen (s.img.take n), buflen := s.buflen + n,
            img := s.img.drop n, reads := s.reads + 1 } rfl hpc
            (by
              show (poke _ _ _).length = E
              rw [poke_length _ _ _ (by omega), hbuf])
            (by show s.buflen + n ≤ E; omega)
        simp only [hI] at h2 h3
        exact ⟨buf, reads, h1, h2, Leads.head hs h3⟩

/-- from the top of the loop to the next block of the image, padded -/
theorem fill_block (c : Cfg E) {s : St E} (hpc : s.pc = .fill) (hbuf : s.buf.length = E)
    (hlen : s.buflen ≤ E) (hne : s.pending ≠ []) :
    ∃ reads s1, Leads (step c) s s1 ∧ step c s1 = blockStep c { s with
      pc := .check, buf := padTo E (s.pending.take E), buflen := E, img := s.pending.drop E,
      reads := reads } := by
  unfold St.pending at hne ⊢
  obtain ⟨buf, reads, h1, h2, h3⟩ := fill_leads c (E - s.buflen) s rfl hpc hbuf hlen
  refine ⟨reads, _, h3, ?_⟩
  generalize hI : s.buf.take s.buflen ++ s.img = I at h2 h3 hne
  have hpos : 0 < I.length := List.length_pos_iff.mpr hne
  have hE := s.dev.erasesize
  by_cases hfull : E ≤ I.length
  · have e1 : min E I.length = E := Nat.min_eq_left hfull
    rw [e1, List.take_of_length_le (by omega)] at h2
    have hl : (I.take E).length = E := by rw [List.length_take, e1]
    unfold step checkStep
    simp only [e1]
    rw [if_neg (by omega), if_neg (by omega), h2, padTo_of_length hl]
  · have e1 : min E I.length = I.length := Nat.min_eq_right (by omega)
    have e2 : I.take E = I := List.take_of_length_le (by omega)
    rw [e1, e2] at h2
    have hst : store buf I.length (List.replicate (E - I.length) 0xff) = some (padTo E I) := by
      refine store_eq_some.mpr ⟨by rw [List.length_replicate]; omega, ?_⟩
      unfold poke padTo
      rw [h2, List.length_replicate, List.drop_eq_nil_of_le (by omega), List.append_nil]
    unfold step checkStep
    simp only [e1]
    rw [if_neg (by omega), if_pos (by omega), hst, e2]

/-- at the end of the image -/
theorem fill_end (c : Cfg E) {s : St E} (hpc : s.pc = .fill) (hbuf : s.buf.length = E)
    (hlen : s.buflen ≤ E) (hnil : s.pending = []) :
    Ends (step c) s (finish c s) := by
  unfold St.pending at hnil
  obtain ⟨buf, reads, h1, h2, h3⟩ := fill_leads c (E - s.buflen) s rfl hpc hbuf hlen
  rw [hnil] at h3
  refine h3.ends_iff.mpr (Ends.done ?_)
  unfold step checkStep
  simp only [List.length_nil, Nat.min_zero]
  rfl

/-! ## erasing and writing -/

/-- the counters agree: the file position is at `e`, which is ahead of `w` by the bad blocks -/
structure At (s : St E) (b : Nat) : Prop where
  e : s.e = (b * E : Nat)
  w : s.w = s.e - s.skipBadBlocks
  pos : s.dev.pos = b * E
  bads : 0 ≤ s.skipBadBlocks ∧ s.skipBadBlocks ≤ (b * E : Nat)
  skip : s.skip ≤ 0
  offset : s.offset = 0

/-- in front of the erase loop, with a block to write -/
structure InErase (s : St E) (b : Nat) : Prop extends At s b where
  pc : s.pc = .erase
  buf : s.buf.length = E
  buflen : s.buflen = E

/-- at the top of the loop -/
structure InFill (s : St E) (b : Nat) : Prop extends At s b where
  pc : s.pc = .fill
  buf : s.buf.length = E
  buflen : s.buflen ≤ E

/-- without bad blocks `w` and `e` are the same -/
theorem At.w_eq {s : St E} {b : Nat} (h : At s b) (hb : s.skipBadBlocks = 0) : s.w = (b * E : Nat) := by
  rw [h.w, h.e, hb]
  omega

/-- the erase loop is entered -/
theorem InErase.step_eq {c : Cfg E} (hc : c.noErase = false) {s : St E} {b : Nat}
    (h : InErase s b) : step c s = eraseTurn c s := by
  have hE := s.dev.erasesize
  unfold step eraseStep
  rw [h.pc]
  simp only
  rw [hc, if_neg (by simp), if_pos (by rw [h.w, h.buflen]; omega)]

/-- block `b` is erased, the loop is left, and the buffer goes to the file position -/
theorem erase_write_leads {c : Cfg E} (hc : c.noErase = false) {s : St E} {b : Nat}
    (hpc : s.pc = .erase) (hbuf : s.buf.length = E) (hlen : s.buflen = E) (ho : s.offset = 0)
    (hw : s.w = s.e - s.skipBadBlocks) (he : s.e = (b * E : Nat)) (hb : b < s.dev.chip.reach E)
    (hg : s.dev.chip.isBad b = false) {d1 d2 : Dev E}
    (h1 : eraseBlock s.dev (b * E : Nat) = some d1) (h2 : write d1 s.buf = ((E : Int), d2)) :
    Leads (step c) s { s with
      pc := .fill, dev := d2, w := s.w + E, e := s.e + E, buflen := 0 } := by
  have hE := s.dev.erasesize
  have hturn : step c s = eraseTurn c s := by
    unfold step eraseStep
    rw [hpc]
    simp only
    rw [hc, if_neg (by simp), if_pos (by rw [hw, hlen]; omega)]
  have s1 : step c s = .inl { s with dev := d1, e := s.e + E } := by
    rw [hturn]
    unfold eraseTurn
    rw [he, blockIsBad_block s.dev hb, hg, h1]
  have s2 : step c { s with dev := d1, e := s.e + E }
      = .inl { s with pc := .write, dev := d1, e := s.e + E } := by
    unfold step eraseStep
    simp only [hpc]
    rw [hc, if_neg (by simp), if_neg (by rw [hw, hlen]; omega)]
  have hl : load s.buf s.offset s.buflen = some s.buf := by
    rw [ho, hlen]
    exact load_eq_some.mpr ⟨by rw [hbuf]; omega, by
      unfold slice
      rw [List.drop_zero, List.take_of_length_le (by rw [hbuf])]⟩
  have s3 : step c { s with pc := .write, dev := d1, e := s.e + E } = .inl { s with
      pc := .fill, dev := d2, w := s.w + E, e := s.e + E, buflen := 0 } := by
    unfold step writeStep
    simp only [hl, h2]
    rw [if_neg (by rw [hlen]; omega), hlen, ho]
  exact Leads.head s1 (Leads.head s2 (Leads.one s3))

/-- a good block takes the block of the image -/
theorem InErase.place {c : Cfg E} (hc : c.noErase = false) {s : St E} {b : Nat}
    (h : InErase s b) (hb : b < s.dev.chip.reach E) (hg : s.dev.chip.isBad b = false)
    (he : s.dev.chip.eraseFails b = false) (hw : s.dev.chip.writeFails b = false) :
    ∃ d', Wrote s.dev d' [b] [s.buf] ∧
      InFill { s with pc := .fill, dev := d', w := s.w + E, e := s.e + E, buflen := 0 } (b + 1) ∧
      Leads (step c) s { s with
        pc := .fill, dev := d', w := s.w + E, e := s.e + E, buflen := 0 } := by
  obtain ⟨d1, d2, h1, h2, hp, hd⟩ := wrote_block s.dev
    (Nat.lt_of_lt_of_le hb (s.dev.chip.reach_le E)) he hw h.pos h.buf
  have hbE : ((b + 1) * E : Nat) = b * E + E := by rw [Nat.add_mul, Nat.one_mul]
  refine ⟨d2, hd, ⟨⟨?_, ?_, hp, ?_, h.skip, h.offset⟩, rfl, h.buf, Nat.zero_le E⟩,
    erase_write_leads hc h.pc h.buf h.buflen h.offset h.w h.e hb hg h1 h2⟩
  · show s.e + E = _
    rw [h.e, hbE]
    omega
  · show s.w + E = s.e + E - s.skipBadBlocks
    rw [h.w]
    omega
  · show 0 ≤ s.skipBadBlocks ∧ s.skipBadBlocks ≤ _
    have := h.bads
    omega

/-- a bad block is stepped over -/
theorem InErase.bad {c : Cfg E} (hc : c.noErase = false) {s : St E} {b : Nat}
    (h : InErase s b) (hb : b < s.dev.chip.reach E) (hg : s.dev.chip.isBad b = true)
    (hr : inRange (s.skipBadBlocks + E)) :
    InErase { s with skipBadBlocks := s.skipBadBlocks + E, e := s.e + E,
                     dev := seekCur s.dev E } (b + 1) ∧
      Leads (step c) s { s with skipBadBlocks := s.skipBadBlocks + E, e := s.e + E,
                                dev := seekCur s.dev E } := by
  have hbE : ((b + 1) * E : Nat) = b * E + E := by rw [Nat.add_mul, Nat.one_mul]
  refine ⟨⟨⟨?_, ?_, ?_, ?_, h.skip, h.offset⟩, h.pc, h.buf, h.buflen⟩, Leads.one ?_⟩
  · show s.e + E = _
    rw [h.e, hbE]
    omega
  · show s.w = s.e + E - (s.skipBadBlocks + E)
    rw [h.w]
    omega
  · show s.dev.pos + E = _
    rw [h.pos, hbE]
  · show 0 ≤ s.skipBadBlocks + E ∧ s.skipBadBlocks + E ≤ _
    have := h.bads
    omega
  · rw [h.step_eq hc]
    unfold eraseTurn
    rw [h.e, blockIsBad_block s.dev hb, hg, intAdd_eq_some.mpr ⟨hr, rfl⟩]

/-- the blocks still to be written, the one in the buffer first -/
def St.todo (s : St E) : List (List UInt8) := s.buf :: padBlocks E s.img

/-- what the loops over blocks leave alone -/
structure Keeps (s s' : St E) : Prop where
  left : s'.left = s.left
  next : s'.next = s.next
  jffs2file : s'.jffs2file = s.jffs2file
  replaced : s'.replaced = s.replaced

theorem Keeps.trans {s s' s'' : St E} (h : Keeps s s') (h' : Keeps s' s'') : Keeps s s'' :=
  ⟨h'.left.trans h.left, h'.next.trans h.next, h'.jffs2file.trans h.jffs2file,
    h'.replaced.trans h.replaced⟩

theorem Keeps.finish_eq {s s' : St E} (h : Keeps s s') (c : Cfg E) (d : Dev E) :
    finish c { s' with dev := d } = finish c { s with dev := d } := by
  unfold finish fixHeader
  simp only [h.left, h.next, h.replaced]

/-- the next block of the image is taken -/
theorem InFill.next {c : Cfg E} {s : St E} {b : Nat} (h : InFill s b) (hj : s.jffs2file = none)
    (hne : s.pending ≠ []) :
    ∃ s', Leads (step c) s s' ∧ InErase s' b ∧ s'.todo = padBlocks E s.pending ∧
      s'.dev = s.dev ∧ s'.skipBadBlocks = s.skipBadBlocks ∧ Keeps s s' := by
  obtain ⟨reads, s1, h1, h2⟩ := fill_block c h.pc h.buf h.buflen hne
  have hs := h.skip
  unfold blockStep at h2
  simp only [hj] at h2
  rw [if_neg (by omega)] at h2
  refine ⟨_, h1.trans (Leads.one h2), ⟨⟨h.e, h.w, h.pos, h.bads, h.skip, h.offset⟩, rfl, ?_, rfl⟩,
    ?_, rfl, rfl, ⟨rfl, rfl, hj.symm, rfl⟩⟩
  · exact padTo_take_length E _
  · rw [padBlocks_cons s.dev.erasesize hne]
    rfl

/-! ## one device -/

/-- a good block that cannot be erased -/
def Chip.stuck (c : Chip) (b : Nat) : Bool := !c.isBad b && c.eraseFails b

/-- the first such block, or the end of what can be addressed -/
def Chip.stop (c : Chip) (E : Nat) : Nat :=
  ((List.range (c.reach E)).find? c.stuck).getD (c.reach E)

/-- the good blocks from `b` up to `t` -/
def Chip.good (c : Chip) (b t : Nat) : List Nat := (List.range' b (t - b)).filter fun b => !c.isBad b

theorem Chip.stop_le (c : Chip) (E : Nat) : c.stop E ≤ c.reach E := by
  unfold Chip.stop
  cases h : (List.range (c.reach E)).find? c.stuck with
  | none => exact Nat.le_refl _
  | some b => exact Nat.le_of_lt (List.mem_range.mp (List.mem_of_find?_eq_some h))

theorem Chip.stop_good (c : Chip) (E : Nat) {b : Nat} (hb : b < c.stop E)
    (hg : c.isBad b = false) : c.eraseFails b = false := by
  have hr : b ∈ List.range (c.reach E) :=
    List.mem_range.mpr (Nat.lt_of_lt_of_le hb (c.stop_le E))
  unfold Chip.stop at hb
  cases h : (List.range (c.reach E)).find? c.stuck with
  | none =>
    have := List.find?_eq_none.mp h b hr
    simpa [Chip.stuck, hg] using this
  | some t =>
    rw [h, Option.getD_some] at hb
    have := (List.find?_range_eq_some.mp h).2.2 b hb
    simpa [Chip.stuck, hg] using this

theorem Chip.stop_fails (c : Chip) (E : Nat) (h : c.stop E < c.reach E) :
    c.isBad (c.stop E) = false ∧ c.eraseFails (c.stop E) = true := by
  unfold Chip.stop at h ⊢
  cases he : (List.range (c.reach E)).find? c.stuck with
  | none =>
    rw [he] at h
    exact absurd h (Nat.lt_irrefl _)
  | some t =>
    have := (List.find?_range_eq_some.mp he).1
    simpa [Chip.stuck] using this

theorem Chip.good_nil (c : Chip) {b t : Nat} (h : t ≤ b) : c.good b t = [] := by
  unfold Chip.good
  rw [Nat.sub_eq_zero_of_le h]
  rfl

theorem Chip.good_cons (c : Chip) {b t : Nat} (h : b < t) :
    c.good b t = if c.isBad b then c.good (b + 1) t else b :: c.good (b + 1) t := by
  unfold Chip.good
  rw [show t - b = t - (b + 1) + 1 by omega, List.range'_succ, List.filter_cons]
  cases c.isBad b <;> rfl

theorem Chip.le_of_mem_good {c : Chip} {b t x : Nat} (h : x ∈ c.good b t) : b ≤ x ∧ x < t := by
  unfold Chip.good at h
  have := List.mem_range'_1.mp (List.mem_of_mem_filter h)
  omega

theorem Chip.good_length_le (c : Chip) (b t : Nat) : (c.good b t).length ≤ t - b := by
  unfold Chip.good
  have := List.length_filter_le (fun b => !c.isBad b) (List.range' b (t - b))
  rwa [List.length_range'] at this

theorem Wrote.seek {d d' : Dev E} {bs : List Nat} {B : List (List UInt8)}
    (h : Wrote (seekCur d E) d' bs B) : Wrote d d' bs B := ⟨h.chip, h.data, h.rest, h.log⟩

/-- `s'` stands in front of the block `t` with the first of the blocks `B` that found no room -/
structure Full (s s' : St E) (B : List (List UInt8)) (b t : Nat) : Prop where
  front : InErase s' t
  wrote : Wrote s.dev s'.dev (s.dev.chip.good b t) (B.take (s.dev.chip.good b t).length)
  todo : s'.todo = B.drop (s.dev.chip.good b t).length
  bads : s'.skipBadBlocks = s.skipBadBlocks + ((t - b - (s.dev.chip.good b t).length) * E : Nat)
  keeps : Keeps s s'

/-- what a run with the blocks `B` from `b` to `t` can come to: everything is written, or the
device is full (then the counter of bad blocks may overflow) -/
def Comes (c : Cfg E) (s : St E) (B : List (List UInt8)) (b t : Nat) : Prop :=
  let us := s.dev.chip.good b t
  (B.length ≤ us.length ∧ ∃ d', Wrote s.dev d' (us.take B.length) B ∧
    Ends (step c) s (finish c { s with dev := d' })) ∨
  (us.length < B.length ∧ ((∃ s', Leads (step c) s s' ∧ Full s s' B b t) ∨
    (t = s.dev.chip.reach E ∧ s.dev.chip.nand = true ∧ Ends (step c) s .fault)))

theorem comes_end {c : Cfg E} {s : St E} {t : Nat} (h : InErase s t) : Comes c s s.todo t t := by
  have hg := s.dev.chip.good_nil (Nat.le_refl t)
  refine Or.inr ⟨by rw [hg]; exact Nat.zero_lt_succ _, Or.inl ⟨s, Leads.refl s, h, ?_, ?_, ?_,
    ⟨rfl, rfl, rfl, rfl⟩⟩⟩
  · rw [hg]
    exact Wrote.refl s.dev
  · rw [hg]
    rfl
  · rw [hg, Nat.sub_self, Nat.zero_sub, Nat.zero_mul]
    omega

theorem comes_bad {c : Cfg E} {s s1 : St E} {B : List (List UInt8)} {b t : Nat} (hb : b < t)
    (hg : s.dev.chip.isBad b = true)
    (h1 : s1 = { s with skipBadBlocks := s.skipBadBlocks + E, e := s.e + E,
                        dev := seekCur s.dev E })
    (hl : Leads (step c) s s1) (h : Comes c s1 B (b + 1) t) : Comes c s B b t := by
  subst h1
  have hu : s.dev.chip.good b t = s.dev.chip.good (b + 1) t := by
    rw [s.dev.chip.good_cons hb, hg]
    rfl
  have hle := s.dev.chip.good_length_le (b + 1) t
  unfold Comes
  rw [hu]
  rcases h with ⟨h1, d', h2, h3⟩ | ⟨h1, ⟨s', h2, h3⟩ | ⟨h2, h3, h4⟩⟩
  · exact Or.inl ⟨h1, d', h2.seek, hl.ends_iff.mpr h3⟩
  · refine Or.inr ⟨h1, Or.inl ⟨s', hl.trans h2, h3.front, ?_, ?_, ?_,
      ⟨h3.keeps.left, h3.keeps.next, h3.keeps.jffs2file, h3.keeps.replaced⟩⟩⟩
    · rw [hu]
      exact h3.wrote.seek
    · rw [hu]
      exact h3.todo
    · have hb3 : s'.skipBadBlocks = s.skipBadBlocks + E
          + ((t - (b + 1) - (s.dev.chip.good (b + 1) t).length) * E : Nat) := h3.bads
      rw [hu, hb3, show t - b - (s.dev.chip.good (b + 1) t).length
        = t - (b + 1) - (s.dev.chip.good (b + 1) t).length + 1 by omega, Nat.add_mul, Nat.one_mul]
      omega
  · exact Or.inr ⟨h1, Or.inr ⟨h2, h3, hl.ends_iff.mpr h4⟩⟩

theorem comes_good {c : Cfg E} {s s2 : St E} {d1 : Dev E} {x : List UInt8}
    {B : List (List UInt8)} {b t : Nat} (hb : b < t) (hg : s.dev.chip.isBad b = false)
    (hw : Wrote s.dev d1 [b] [x]) (hd : s2.dev = d1) (hs : s2.skipBadBlocks = s.skipBadBlocks)
    (hk : Keeps s s2) (hl : Leads (step c) s s2) (h : Comes c s2 B (b + 1) t) :
    Comes c s (x :: B) b t := by
  have hc : s2.dev.chip = s.dev.chip := by rw [hd, hw.chip]
  have hu : s.dev.chip.good b t = b :: s2.dev.chip.good (b + 1) t := by
    rw [s.dev.chip.good_cons hb, hg, hc]
    rfl
  have hnot : ∀ n, ∀ y ∈ [b], y ∉ (s2.dev.chip.good (b + 1) t).take n := by
    intro n y hy hm
    have := Chip.le_of_mem_good (List.mem_of_mem_take hm)
    rw [List.mem_singleton] at hy
    omega
  subst hd
  unfold Comes
  rw [hu]
  simp only [List.length_cons]
  rcases h with ⟨h1, d', h2, h3⟩ | ⟨h1, ⟨s', h2, h3⟩ | ⟨h2, h3, h4⟩⟩
  · refine Or.inl ⟨by omega, d', hw.trans h2 (hnot _), hl.ends_iff.mpr ?_⟩
    rw [← hk.finish_eq]
    exact h3
  · refine Or.inr ⟨by omega, Or.inl ⟨s', hl.trans h2, h3.front, ?_, ?_, ?_,
      hk.trans h3.keeps⟩⟩
    · rw [hu]
      refine hw.trans h3.wrote fun y hy => ?_
      have := hnot (s2.dev.chip.good (b + 1) t).length y hy
      rwa [List.take_length] at this
    · rw [hu]
      exact h3.todo
    · rw [hu, h3.bads, hs, List.length_cons, Nat.sub_sub, Nat.sub_sub, Nat.add_assoc,
        Nat.add_comm 1]
  · exact Or.inr ⟨by omega, Or.inr ⟨hc ▸ h2, hc ▸ h3, hl.ends_iff.mpr h4⟩⟩

/-- the step before the erase loop does not matter -/
theorem comes_leads {c : Cfg E} {s s2 : St E} {B : List (List UInt8)} {b t : Nat}
    (hd : s2.dev = s.dev) (hs : s2.skipBadBlocks = s.skipBadBlocks) (hk : Keeps s s2)
    (hl : Leads (step c) s s2) (h : Comes c s2 B b t) : Comes c s B b t := by
  unfold Comes at h ⊢
  rw [hd] at h
  rcases h with ⟨h1, d', h2, h3⟩ | ⟨h1, ⟨s', h2, h3⟩ | ⟨h2, h3, h4⟩⟩
  · refine Or.inl ⟨h1, d', h2, hl.ends_iff.mpr ?_⟩
    rw [← hk.finish_eq]
    exact h3
  · have h4 := h3.wrote
    have h5 := h3.todo
    have h6 := h3.bads
    rw [hd] at h4 h5 h6
    exact Or.inr ⟨h1, Or.inl ⟨s', hl.trans h2, h3.front, h4, h5, hs ▸ h6, hk.trans h3.keeps⟩⟩
  · exact Or.inr ⟨h1, Or.inr ⟨h2, h3, hl.ends_iff.mpr h4⟩⟩

/-- up to `t` every good block can be erased and written -/
structure Ready (c : Chip) (E t : Nat) : Prop where
  le : t ≤ c.reach E
  ok : ∀ b, b < t → c.isBad b = false → c.eraseFails b = false ∧ c.writeFails b = false

/-- the counter of bad blocks overflows: this was the last block that can be addressed -/
theorem comes_fault {c : Cfg E} (hc : c.noErase = false) {s : St E} {b t : Nat} (h : InErase s b)
    (hb : b < t) (hr : t ≤ s.dev.chip.reach E) (hg : s.dev.chip.isBad b = true)
    (hov : ¬ inRange (s.skipBadBlocks + E)) : Comes c s s.todo b t := by
  have hn : s.dev.chip.nand = true := (Bool.and_eq_true_iff.mp hg).1
  have hlast : ¬ b + 1 < s.dev.chip.reach E := by
    rw [Chip.lt_reach s.dev.erasesize hn]
    rintro ⟨-, h1⟩
    have hbE : ((b + 1) * E : Nat) = b * E + E := by rw [Nat.add_mul, Nat.one_mul]
    have := h.bads
    apply hov
    unfold inRange
    omega
  have ht : t = b + 1 := by omega
  have hu : s.dev.chip.good b t = [] := by
    rw [s.dev.chip.good_cons hb, hg, if_pos rfl, ht, s.dev.chip.good_nil (Nat.le_refl _)]
  refine Or.inr ⟨by rw [hu]; exact Nat.zero_lt_succ _, Or.inr ⟨by omega, hn, Ends.done ?_⟩⟩
  rw [h.step_eq hc]
  unfold eraseTurn intAdd
  rw [h.e, blockIsBad_block s.dev (Nat.lt_of_lt_of_le hb hr), hg, if_neg hov]

/-- **One device**: the blocks of the image go to its good blocks, in order. -/
theorem device_run {c : Cfg E} (hc : c.noErase = false) {t : Nat} : ∀ (k b : Nat) (s : St E),
    t - b = k → b ≤ t → InErase s b → s.jffs2file = none → Ready s.dev.chip E t →
    Comes c s s.todo b t := by
  intro k
  induction k with
  | zero =>
    intro b s hk hb h hj hr
    have : b = t := by omega
    subst this
    exact comes_end h
  | succ k ih =>
    intro b s hk hb h hj hr
    have hbt : b < t := by omega
    have hbr : b < s.dev.chip.reach E := Nat.lt_of_lt_of_le hbt hr.le
    cases hg : s.dev.chip.isBad b with
    | true =>
      by_cases hov : inRange (s.skipBadBlocks + E)
      · obtain ⟨h1, h2⟩ := h.bad hc hbr hg hov
        exact comes_bad hbt hg rfl h2 (ih (b + 1) _ (by omega) hbt h1 hj hr)
      · exact comes_fault hc h hbt hr.le hg hov
    | false =>
      obtain ⟨he, hw⟩ := hr.ok b hbt hg
      obtain ⟨d1, hd, hf, hl⟩ := h.place hc hbr hg he hw
      by_cases hi : s.img = []
      · -- that was the last block of the image
        have ht : s.todo = [s.buf] := by
          unfold St.todo
          rw [hi, padBlocks_nil]
        refine Or.inl ⟨?_, d1, ?_, hl.ends_iff.mpr (fill_end c hf.pc hf.buf hf.buflen hi)⟩
        · rw [ht, s.dev.chip.good_cons hbt, hg]
          exact Nat.succ_le_succ (Nat.zero_le _)
        · rw [ht, s.dev.chip.good_cons hbt, hg]
          exact hd
      · obtain ⟨s2, hl2, h2, ht2, hd2, hs2, hk2⟩ := hf.next hj hi
        have hrun := ih (b + 1) s2 (by omega) hbt h2 (hk2.jffs2file.trans hj)
          (by rw [hd2, hd.chip]; exact hr)
        rw [ht2] at hrun
        exact comes_good hbt hg hd hd2 hs2 ⟨hk2.left, hk2.next, hk2.jffs2file, hk2.replaced⟩
          (hl.trans hl2) hrun

theorem fill_run {c : Cfg E} (hc : c.noErase = false) {b t : Nat} {s : St E} (hb : b ≤ t)
    (h : InFill s b) (hj : s.jffs2file = none) (hr : Ready s.dev.chip E t) :
    Comes c s (padBlocks E s.pending) b t := by
  by_cases hi : s.pending = []
  · rw [hi]
    exact Or.inl ⟨Nat.zero_le _, s.dev, Wrote.refl s.dev, fill_end c h.pc h.buf h.buflen hi⟩
  · obtain ⟨s2, hl2, h2, ht2, hd2, hs2, hk2⟩ := h.next hj hi
    have hrun := device_run hc (t - b) b s2 rfl hb h2 (hk2.jffs2file.trans hj) (by rw [hd2]; exact hr)
    rw [ht2] at hrun
    exact comes_leads hd2 hs2 hk2 hl2 hrun

/-! ## where a device ends -/

/-- on NAND the question for the block behind the last one fails -/
theorem InErase.end_nand {c : Cfg E} (hc : c.noErase = false) {s : St E}
    (h : InErase s (s.dev.chip.reach E)) (hn : s.dev.chip.nand = true) :
    step c s = .inr (.exit s.devs) := by
  rw [h.step_eq hc]
  unfold eraseTurn
  rw [h.e, blockIsBad_end s.dev hn]

/-- otherwise the erase fails there -/
theorem InErase.end_nor {c : Cfg E} (hc : c.noErase = false) {s : St E}
    (h : InErase s (s.dev.chip.reach E)) (hn : s.dev.chip.nand = false) :
    step c s = eraseFailed c s := by
  have hr := Chip.reach_nor hn E
  rw [h.step_eq hc]
  unfold eraseTurn
  rw [h.e, blockIsBad_nor s.dev hn, eraseBlock_none s.dev (Nat.le_of_eq hr) (Or.inl hr)]

/-- as it does at a block that cannot be erased -/
theorem InErase.stuck {c : Cfg E} (hc : c.noErase = false) {s : St E} {b : Nat} (h : InErase s b)
    (hb : b < s.dev.chip.reach E) (hg : s.dev.chip.isBad b = false)
    (hf : s.dev.chip.eraseFails b = true) : step c s = eraseFailed c s := by
  have hle := s.dev.chip.reach_le E
  rw [h.step_eq hc]
  unfold eraseTurn
  rw [h.e, blockIsBad_block s.dev hb, hg, eraseBlock_none s.dev (by omega) (Or.inr hf)]

theorem eraseFailed_last {c : Cfg E} {s : St E} (h : s.next = []) :
    eraseFailed c s = .inr (.exit s.devs) := by
  unfold eraseFailed
  rw [h]

theorem finish_plain {c : Cfg E} {s : St E} (h : s.replaced = false) :
    finish c s = .ret s.devs := by
  unfold finish fixHeader
  rw [h]
  rfl

theorem inFill_start {c : Cfg E} (hp : c.partOffset = 0) (d : Dev E) (next : List (Dev E))
    {buf : List UInt8} {buflen : Nat} (hbuf : buf.length = E) (hlen : buflen ≤ E)
    (img : List UInt8) (f : Option File) (jst : Jst) :
    InFill (start c d next buf buflen img f jst) 0 := by
  refine ⟨⟨?_, rfl, ?_, ⟨Int.le_refl 0, ?_⟩, Int.le_refl 0, rfl⟩, rfl, hbuf, hlen⟩
  · rw [Nat.zero_mul]
    rfl
  · rw [Nat.zero_mul]
    exact hp
  · rw [Nat.zero_mul]
    rfl

/-! ## a single device without failures -/

/-- the run put the image, padded with `0xff`, on the blocks `bs` -/
structure Placed (d d' : Dev E) (bs : List Nat) (img : List UInt8) : Prop where
  image : ∃ k, k < E ∧ img.length + k = bs.length * E ∧
    bs.flatMap d'.block = img ++ List.replicate k 0xff
  once : d'.log = d.log ++ bs.flatMap fun b => [.erase b, .write b]
  erased : ∀ pre b post, d'.log = d.log ++ (pre ++ .write b :: post) → .erase b ∈ pre
  good : ∀ b, .erase b ∈ d'.log.drop d.log.length ∨ .write b ∈ d'.log.drop d.log.length →
    d.chip.isBad b = false
  rest : ∀ b, b ∉ bs → d'.block b = d.block b

theorem erase_before_write {b : Nat} {post : List Event} : ∀ {bs : List Nat} {pre : List Event},
    (bs.flatMap fun b => [Event.erase b, .write b]) = pre ++ .write b :: post →
    .erase b ∈ pre := by
  intro bs
  induction bs with
  | nil =>
    intro pre h
    exact absurd h.symm (by simp)
  | cons a bs ih =>
    intro pre h
    rw [List.flatMap_cons, List.cons_append, List.cons_append, List.nil_append] at h
    match pre, h with
    | [], h => exact absurd (List.cons.inj h).1 (by simp)
    | [x], h =>
      obtain ⟨h1, h2⟩ := List.cons.inj h
      obtain ⟨h3, -⟩ := List.cons.inj h2
      rw [← h1, Event.write.inj h3]
      exact List.mem_singleton_self _
    | x :: y :: pre, h =>
      have h2 := (List.cons.inj (List.cons.inj h).2).2
      exact List.mem_cons_of_mem _ (List.mem_cons_of_mem _ (ih h2))

theorem Wrote.placed {d d' : Dev E} {bs : List Nat} {img : List UInt8}
    (h : Wrote d d' bs (padBlocks E img)) (hg : ∀ b ∈ bs, d.chip.isBad b = false) :
    Placed d d' bs img := by
  have hl : bs.length = (padBlocks E img).length := by rw [← h.data, List.length_map]
  refine ⟨?_, h.log, fun pre b post he => ?_, fun b hb => ?_, h.rest⟩
  · obtain ⟨k, h1, h2, h3⟩ := padBlocks_flatten d.erasesize img
    refine ⟨k, h1, by rw [hl, h2], ?_⟩
    rw [← h3, ← h.data, List.flatMap_def]
  · rw [h.log] at he
    exact erase_before_write (List.append_cancel_left he)
  · rw [h.log, List.drop_left, List.mem_flatMap, List.mem_flatMap] at hb
    rcases hb with ⟨a, ha, he⟩ | ⟨a, ha, he⟩
    · simp only [List.mem_cons, Event.erase.injEq, reduceCtorEq, List.not_mem_nil, or_false] at he
      exact he ▸ hg a ha
    · simp only [List.mem_cons, Event.write.injEq, reduceCtorEq, List.not_mem_nil, or_false,
        false_or] at he
      exact he ▸ hg a ha

theorem padBlocks_length_le (hE : 0 < E) (img : List UInt8) (n : Nat) :
    (padBlocks E img).length ≤ n ↔ img.length ≤ n * E := by
  obtain ⟨k, h1, h2, -⟩ := padBlocks_flatten hE img
  constructor
  · intro h
    have := Nat.mul_le_mul_right E h
    omega
  · intro h
    by_contra hlt
    have := Nat.mul_le_mul_right E (Nat.lt_of_not_le hlt)
    rw [Nat.succ_mul] at this
    omega

theorem Chip.isBad_of_good {c : Chip} {b t x : Nat} (h : x ∈ c.good b t) : c.isBad x = false := by
  have := (List.mem_filter.mp h).2
  simpa using this

/-- **Placement around bad blocks**: an image that fits goes to the first good blocks, in order,
each erased and then written, and nothing else changes; one that does not fit is an error. -/
theorem write_places {c : Cfg E} (hc : c.noErase = false) (hp : c.partOffset = 0) (d : Dev E)
    (hok : ∀ b, d.chip.isBad b = false →
      d.chip.eraseFails b = false ∧ d.chip.writeFails b = false)
    {buf : List UInt8} {buflen : Nat} (hbuf : buf.length = E) (hlen : buflen ≤ E)
    (img : List UInt8) (jst : Jst) :
    let good := d.chip.good 0 (d.chip.reach E)
    let image := buf.take buflen ++ img
    (image.length ≤ good.length * E → ∃ d' n,
      Ends (step c) (start c d [] buf buflen img none jst) (.ret [d']) ∧
      Placed d d' (good.take n) image) ∧
    (good.length * E < image.length →
      ∀ devs, ¬ Ends (step c) (start c d [] buf buflen img none jst) (.ret devs)) := by
  intro good image
  have hfits := padBlocks_length_le d.erasesize image good.length
  have hrun : Comes c (start c d [] buf buflen img none jst) (padBlocks E image) 0
      (d.chip.reach E) :=
    fill_run hc (Nat.zero_le _) (inFill_start hp d [] hbuf hlen img none jst) rfl
      ⟨Nat.le_refl _, fun b _ hb => hok b hb⟩
  rcases hrun with ⟨h1, d', h2, h3⟩ | ⟨h1, h2⟩
  · refine ⟨fun _ => ⟨d', (padBlocks E image).length, h3, ?_⟩, fun hbig => ?_⟩
    · have hw : Wrote d d' (good.take (padBlocks E image).length) (padBlocks E image) :=
        ⟨h2.chip, h2.data, h2.rest, h2.log⟩
      exact hw.placed fun b hb => Chip.isBad_of_good (List.mem_of_mem_take hb)
    · exact absurd (hfits.mp h1) (by omega)
  · refine ⟨fun hle => absurd (hfits.mpr hle) (Nat.not_le_of_lt h1), fun _ devs he => ?_⟩
    rcases h2 with ⟨s', h3, h4⟩ | ⟨-, -, h3⟩
    · have hend : step c s' = .inr (.exit s'.devs) := by
        have hf := h4.front
        have hchip : s'.dev.chip = d.chip := h4.wrote.chip
        rw [show d.chip.reach E = s'.dev.chip.reach E by rw [hchip]] at hf
        cases hn : s'.dev.chip.nand with
        | true => exact hf.end_nand hc hn
        | false => rw [hf.end_nor hc hn, eraseFailed_last h4.keeps.next]
      have := (h3.ends_iff.mp he).unique (Ends.done hend)
      exact absurd this (by simp)
    · exact absurd (he.unique h3) (by simp)

/-- no options -/
def plainCfg (E : Nat) : Cfg E :=
  ⟨false, false, 0, 0, [], .unknown, fun _ => none, List.replicate E 0, fun _ => 0⟩

def jst0 : Jst := ⟨0, 0, 0, [], 0, []⟩

/-- a small device, all bytes zero -/
def smallDev (chip : Chip) (h : chip.nblocks * 4 < 4294967296) : Dev 4 :=
  ⟨chip, by decide, h, List.replicate (chip.nblocks * 4) 0, List.length_replicate, 0, []⟩

/-- three blocks, the one in the middle bad -/
def holedDev : Dev 4 :=
  smallDev ⟨3, true, fun b => b == 1, fun _ => false, fun _ => false⟩ (by decide)

theorem write_places_holed : ∃ d' n,
    Ends (step (plainCfg 4)) (start (plainCfg 4) holedDev [] [1, 2, 3, 4] 4 [5, 6] none jst0)
      (.ret [d']) ∧ Placed holedDev d' ([0, 2].take n) [1, 2, 3, 4, 5, 6] :=
  (write_places rfl rfl holedDev (fun _ _ => ⟨rfl, rfl⟩) rfl (Nat.le_refl 4) [5, 6] jst0).1
    (by decide)

end Mtd
