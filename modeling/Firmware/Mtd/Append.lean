import Firmware.Mtd.Encode
import Firmware.Mtd.Place

/-!
# mtd: a jffs2 file appended to an image

`-j file` makes `mtd_write` put the file where the image has its EOF marker, and drop the image
blocks that it covers.

* `encode_blocks`    what `mtd_replace_jffs2` hands to the device: whole blocks, an EOF block last;
* `flushAll_run`     they go to consecutive blocks of a device without bad ones;
* `front_run`        the blocks in front of the marker;
* `replace_run`      the marker block is replaced;
* `drop_run`         the image blocks behind it are dropped, as many as were written;
* `append_places`    the whole run.
-/

set_option linter.unusedVariables false

namespace Mtd
open Img Word CInt Machine Blocks

section
variable {v : Jenv} {s : Jst}

/-! ## the blocks of `mtd_replace_jffs2` -/

/-- the position stays in the buffer, and only whole blocks are handed out -/
structure Sane (v : Jenv) (s : Jst) : Prop where
  buf : s.buf.length = v.E
  ofs : s.ofs ≤ v.E
  out : ∀ blk ∈ s.out, blk.length = v.E

theorem Sane.put {l : List UInt8} {s' : Jst} (h : Sane v s) (hs : put s l = some s') :
    Sane v s' := by
  obtain ⟨buf, h1, h2⟩ := Option.bind_eq_some_iff.mp hs
  obtain ⟨h3, -⟩ := store_eq_some.mp h1
  rw [h.buf] at h3
  rw [← Option.some.inj h2]
  exact ⟨(store_length h1).trans h.buf, h3, h.out⟩

theorem Sane.numbers (h : Sane v s) (i j t : Int) :
    Sane v { s with lastIno := i, lastVersion := j, targetIno := t } := ⟨h.buf, h.ofs, h.out⟩

/-- a block is handed out when the position is at its end -/
theorem pad_eq (v : Jenv) (size : Nat) (s : Jst) : pad v size s =
    if s.ofs % size = 0 ∧ s.ofs < v.E then some s
    else (if s.ofs < v.E then put s (List.replicate (size - s.ofs % size) 0xff) else some s).map
      fun s => if s.ofs % v.E = 0 then { s with ofs := s.ofs % v.E, out := s.out ++ [s.buf] }
        else { s with ofs := s.ofs % v.E } := by
  unfold pad put
  split
  · rfl
  · split
    · simp only [List.length_replicate]
      cases store s.buf s.ofs (List.replicate (size - s.ofs % size) 0xff) with
      | none => rfl
      | some buf =>
        simp only [Option.bind_eq_bind, Option.bind_some, Option.map_some]
        split <;> rfl
    · simp only [Option.bind_eq_bind, Option.bind_some, Option.map_some]
      split <;> rfl

theorem Sane.wrap (h : Sane v s) :
    Sane v (if s.ofs % v.E = 0 then { s with ofs := s.ofs % v.E, out := s.out ++ [s.buf] }
      else { s with ofs := s.ofs % v.E }) := by
  have hm := Nat.le_trans (Nat.mod_le s.ofs v.E) h.ofs
  split
  · refine ⟨h.buf, hm, fun blk hb => ?_⟩
    rcases List.mem_append.mp hb with hb | hb
    · exact h.out blk hb
    · rw [List.mem_singleton.mp hb]
      exact h.buf
  · exact ⟨h.buf, hm, h.out⟩

theorem Sane.pad {size : Nat} {s' : Jst} (h : Sane v s) (hs : pad v size s = some s') :
    Sane v s' := by
  rw [pad_eq] at hs
  split at hs
  · exact Option.some.inj hs ▸ h
  · obtain ⟨s1, h1, h2⟩ := Option.map_eq_some_iff.mp hs
    have hs1 : Sane v s1 := by
      split at h1
      · exact h.put h1
      · exact Option.some.inj h1 ▸ h
    exact h2 ▸ hs1.wrap

theorem Sane.prep {s' : Jst} (h : Sane v s) (hs : prepEraseblock v s = some s') : Sane v s' := by
  unfold prepEraseblock at hs
  split at hs
  · exact Option.some.inj hs ▸ h
  · split at hs
    · exact absurd hs (by simp)
    · exact h.put hs

theorem Sane.addData {l : List UInt8} {s' : Jst} (h : Sane v s) (hs : addData v l s = some s') :
    Sane v s' := by
  unfold Mtd.addData at hs
  split at hs
  · simp only [Option.bind_eq_bind] at hs
    obtain ⟨s1, h1, hs⟩ := Option.bind_eq_some_iff.mp hs
    obtain ⟨s2, h2, hs⟩ := Option.bind_eq_some_iff.mp hs
    exact ((h.pad h1).prep h2).put hs
  · exact h.put hs

theorem Sane.makeRoom {s' : Jst} (h : Sane v s) (hs : makeRoom v s = some s') : Sane v s' := by
  unfold Mtd.makeRoom at hs
  split at hs
  · exact Option.some.inj hs ▸ h
  · obtain ⟨s1, h1, hs⟩ := Option.bind_eq_some_iff.mp hs
    obtain ⟨s2, h2, hs⟩ := Option.bind_eq_some_iff.mp hs
    split at hs
    · exact Option.some.inj hs ▸ (h.pad h1).prep h2
    · exact absurd hs (by simp)

theorem Sane.addNodes {st : Stat} {ino : UInt32} : ∀ (fuel : Nat) (content : List UInt8)
    (fOffset : Int) (s s' : Jst), Sane v s → addNodes v st ino fuel content fOffset s = some s' →
    Sane v s'
  | 0, _, _, _, _, _, hs => absurd hs (by simp [Mtd.addNodes])
  | fuel + 1, content, fOffset, s, s', h, hs => by
    unfold Mtd.addNodes at hs
    simp only [Option.bind_eq_bind] at hs
    obtain ⟨s1, h1, hs⟩ := Option.bind_eq_some_iff.mp hs
    split at hs
    · exact Option.some.inj hs ▸ h.makeRoom h1
    · obtain ⟨ver, -, hs⟩ := Option.bind_eq_some_iff.mp hs
      obtain ⟨off, -, hs⟩ := Option.bind_eq_some_iff.mp hs
      obtain ⟨s2, h2, hs⟩ := Option.bind_eq_some_iff.mp hs
      obtain ⟨s3, h3, hs⟩ := Option.bind_eq_some_iff.mp hs
      obtain ⟨s4, h4, hs⟩ := Option.bind_eq_some_iff.mp hs
      obtain ⟨s5, h5, hs⟩ := Option.bind_eq_some_iff.mp hs
      have hn := (h.makeRoom h1).numbers s1.lastIno ver s1.targetIno
      exact Sane.addNodes fuel _ off s5 s' ((((hn.addData h2).addData h3).pad h4).prep h5) hs

/-- what `add_dirent` does behind its room test -/
def placeDirent (v : Jenv) (name : List UInt8) (type : UInt8) (parent : UInt32) (s : Jst) :
    Option (UInt32 × Jst) := do
  let s ← prepEraseblock v s
  let ino ← intAdd s.lastIno 1
  let lastIno ← intAdd ino 1
  let lastVersion ← intAdd s.lastVersion 1
  let buf ← store s.buf s.ofs
    (direntNode v.big name type parent (word ino) (word s.lastVersion))
  let s ← pad v 4 { s with lastIno := lastIno, lastVersion := lastVersion, buf := buf,
                           ofs := s.ofs + direntLen + name.length % 256 }
  some (word ino, s)

theorem addDirent_eq (v : Jenv) (name : List UInt8) (type : UInt8) (parent : UInt32) (s : Jst) :
    addDirent v name type parent s =
      (if v.E ≤ s.ofs ∧ s.ofs - v.E < direntLen + name.length then pad v v.E s else some s).bind
        (placeDirent v name type parent) := by
  unfold addDirent
  split <;> rfl

theorem Sane.dirent {name : List UInt8} {type : UInt8} {parent ino : UInt32} {s' : Jst}
    (h : Sane v s) (hs : placeDirent v name type parent s = some (ino, s')) : Sane v s' := by
  unfold placeDirent at hs
  simp only [Option.bind_eq_bind] at hs
  obtain ⟨s2, h2, hs⟩ := Option.bind_eq_some_iff.mp hs
  obtain ⟨i, -, hs⟩ := Option.bind_eq_some_iff.mp hs
  obtain ⟨j, -, hs⟩ := Option.bind_eq_some_iff.mp hs
  obtain ⟨k, -, hs⟩ := Option.bind_eq_some_iff.mp hs
  obtain ⟨buf, h3, hs⟩ := Option.bind_eq_some_iff.mp hs
  obtain ⟨s4, h4, hs⟩ := Option.bind_eq_some_iff.mp hs
  have hs2 := h.prep h2
  have hlen : s2.ofs + (direntLen + name.length) ≤ s2.buf.length := by
    have := (store_eq_some.mp h3).1
    rwa [direntNode_length] at this
  have hmod := Nat.mod_le name.length 256
  rw [hs2.buf] at hlen
  have hs3 : Sane v { s2 with lastIno := j, lastVersion := k, buf := buf,
                              ofs := s2.ofs + direntLen + name.length % 256 } :=
    ⟨(store_length h3).trans hs2.buf, by show _ + _ + _ ≤ _; omega, hs2.out⟩
  have := hs3.pad h4
  exact (Prod.mk.inj (Option.some.inj hs)).2 ▸ this

theorem Sane.addDirent {name : List UInt8} {type : UInt8} {parent ino : UInt32} {s' : Jst}
    (h : Sane v s) (hs : addDirent v name type parent s = some (ino, s')) : Sane v s' := by
  rw [addDirent_eq] at hs
  obtain ⟨s1, h1, hs⟩ := Option.bind_eq_some_iff.mp hs
  split at h1
  · exact (h.pad h1).dirent hs
  · exact (Option.some.inj h1 ▸ h).dirent hs

/-- after `pad(erasesize)` the buffer is empty -/
theorem pad_ofs (hE : 0 < v.E) {s' : Jst} (h : Sane v s) (hs : pad v v.E s = some s') :
    s'.ofs = 0 := by
  have ho := h.ofs
  rw [pad_eq] at hs
  split at hs
  · next hc =>
    rw [← Option.some.inj hs, ← hc.1, Nat.mod_eq_of_lt hc.2]
  · next hc =>
    obtain ⟨s1, h1, h2⟩ := Option.map_eq_some_iff.mp hs
    have hfull : s1.ofs % v.E = 0 := by
      split at h1
      · next hlt =>
        obtain ⟨buf, -, h3⟩ := Option.bind_eq_some_iff.mp h1
        rw [← Option.some.inj h3]
        show (s.ofs + (List.replicate _ _).length) % v.E = 0
        rw [List.length_replicate, Nat.mod_eq_of_lt hlt, Nat.add_sub_cancel' ho, Nat.mod_self]
      · next hlt =>
        rw [← Option.some.inj h1, Nat.le_antisymm ho (Nat.le_of_not_lt hlt), Nat.mod_self]
    rw [if_pos hfull] at h2
    rw [← h2]
    exact hfull

/-- and what was in it is handed out, filled up with `0xff` -/
theorem pad_out {s' : Jst} (h : Sane v s) (h0 : 0 < s.ofs) (hs : pad v v.E s = some s') :
    s'.out = s.out ++ [padTo v.E (s.buf.take s.ofs)] := by
  have ho := h.ofs
  have hb := h.buf
  have htl : (s.buf.take s.ofs).length = s.ofs := by rw [List.length_take]; omega
  rw [pad_eq, if_neg (by rintro ⟨h1, h2⟩; rw [Nat.mod_eq_of_lt h2] at h1; omega)] at hs
  obtain ⟨s1, h1, h2⟩ := Option.map_eq_some_iff.mp hs
  have hfull : s1.ofs = v.E ∧ s1.out = s.out ∧ s1.buf = padTo v.E (s.buf.take s.ofs) := by
    unfold padTo
    rw [htl]
    split at h1
    · next hlt =>
      obtain ⟨buf, h3, h4⟩ := Option.bind_eq_some_iff.mp h1
      rw [Nat.mod_eq_of_lt hlt] at h3 h4
      have hfit := (store_eq_some.mp h3).1
      obtain ⟨m, h5, h6, h7⟩ := store_take s.buf _ s.ofs hfit
      rw [h3] at h5
      rw [List.length_replicate, List.take_of_length_le (by omega), ← Option.some.inj h5] at h7
      rw [← Option.some.inj h4]
      refine ⟨?_, rfl, h7⟩
      show s.ofs + (List.replicate _ _).length = _
      rw [List.length_replicate]
      omega
    · next hlt =>
      rw [← Option.some.inj h1]
      refine ⟨by omega, rfl, ?_⟩
      rw [List.take_of_length_le (by omega), show v.E - s.ofs = 0 by omega]
      exact (List.append_nil _).symm
  rw [hfull.1, Nat.mod_self, if_pos rfl] at h2
  rw [← h2, ← hfull.2.1, ← hfull.2.2]

/-- the end of the encoding: the block in the making, and one with the EOF marker -/
theorem Sane.eof (hE : 0 < v.E) {s4 s5 s' : Jst} (h : Sane v s) (h4 : Mtd.pad v v.E s = some s4)
    (h5 : Mtd.addData v jffs2Eof s4 = some s5) (h6 : Mtd.pad v v.E s5 = some s') :
    (∀ blk ∈ s'.out, blk.length = v.E) ∧ ∃ bs, s'.out = bs ++ [padTo v.E jffs2Eof] := by
  have hs4 := h.pad h4
  have ho4 : s4.ofs = 0 := pad_ofs hE h h4
  have hs5 := hs4.addData h5
  refine ⟨(hs5.pad h6).out, ?_⟩
  have h4E : jffs2Eof.length ≤ v.E := by
    by_contra hlt
    unfold Mtd.addData at h5
    rw [if_pos (by rw [ho4]; omega)] at h5
    simp only [Option.bind_eq_bind] at h5
    obtain ⟨s7, h8, h5⟩ := Option.bind_eq_some_iff.mp h5
    obtain ⟨s6, h9, -⟩ := Option.bind_eq_some_iff.mp h5
    have ho7 := pad_ofs hE hs4 h8
    have hc := cleanMarker_length v.big
    have : jffs2Eof.length = 4 := rfl
    unfold prepEraseblock at h9
    rw [if_neg (by omega), if_pos (by omega)] at h9
    exact absurd h9 (by simp)
  rw [addData_put (by rw [ho4]; omega)] at h5
  obtain ⟨buf, h7, h8⟩ := Option.bind_eq_some_iff.mp h5
  obtain ⟨m, h9, -, h10⟩ := store_take s4.buf jffs2Eof s4.ofs (store_eq_some.mp h7).1
  have ho5 : s5.ofs = jffs2Eof.length := by
    rw [← Option.some.inj h8]
    show s4.ofs + _ = _
    rw [ho4, Nat.zero_add]
  have hd5 : s5.buf.take s5.ofs = jffs2Eof := by
    rw [ho4, Nat.zero_add, List.take_zero, List.nil_append] at h10
    rw [ho5, ← Option.some.inj h8]
    rw [h7] at h9
    rw [← Option.some.inj h9] at h10
    exact h10
  refine ⟨s5.out, ?_⟩
  rw [pad_out hs5 (by rw [ho5]; exact Nat.zero_lt_succ 3) h6, hd5]

/-- **The blocks of the encoding**: whole blocks, the last one with the EOF marker. -/
theorem encode_blocks (hE : 0 < v.E) {f : File} {junk : List UInt8} (hj : junk.length = v.E)
    (hofs : s.ofs ≤ v.E) (hout : s.out = []) {s' : Jst} (h : encode v f junk s = some s') :
    (∀ blk ∈ s'.out, blk.length = v.E) ∧ ∃ bs, s'.out = bs ++ [padTo v.E jffs2Eof] := by
  unfold encode addFile at h
  simp only [Option.bind_eq_bind] at h
  obtain ⟨s3, h3, h⟩ := Option.bind_eq_some_iff.mp h
  obtain ⟨⟨ino, s1⟩, h1, h2⟩ := Option.bind_eq_some_iff.mp h3
  obtain ⟨s4, h4, h⟩ := Option.bind_eq_some_iff.mp h
  obtain ⟨s5, h5, h6⟩ := Option.bind_eq_some_iff.mp h
  have hs0 : Sane v { s with buf := junk, targetIno := 1,
                             lastIno := if s.lastIno = 0 then 1 else s.lastIno } :=
    ⟨hj, hofs, fun blk hb => absurd hb (by rw [hout]; simp)⟩
  exact (Sane.addNodes _ _ _ _ _ (hs0.addDirent h1) h2).eof hE h4 h5 h6

end

/-! ## scanning the image -/

theorem noteTarget_ofs {v : Jenv} {dir buf : List UInt8} {o : Nat} {s s' : Jst}
    (h : noteTarget v dir buf o s = some s') : s'.ofs = s.ofs := by
  unfold noteTarget at h
  split at h
  · exact Option.some.inj h ▸ rfl
  obtain ⟨pino, -, h⟩ := Option.bind_eq_some_iff.mp h
  split at h
  · exact Option.some.inj h ▸ rfl
  obtain ⟨nsize, -, h⟩ := Option.bind_eq_some_iff.mp h
  obtain ⟨same, -, h⟩ := Option.bind_eq_some_iff.mp h
  split at h
  · obtain ⟨ino, -, h⟩ := Option.map_eq_some_iff.mp h
    exact h ▸ rfl
  · exact Option.some.inj h ▸ rfl

theorem noteDirent_ofs {v : Jenv} {dir buf : List UInt8} {o : Nat} {s s' : Jst}
    (h : noteDirent v dir buf o s = some s') : s'.ofs = s.ofs := by
  obtain ⟨s1, h1, h2⟩ := Option.bind_eq_some_iff.mp h
  obtain ⟨ino, -, h2⟩ := Option.bind_eq_some_iff.mp h2
  obtain ⟨version, -, h2⟩ := Option.bind_eq_some_iff.mp h2
  have ht := noteTarget_ofs h1
  rw [← Option.some.inj h2]
  exact ht

/-- the scan of a block leaves the buffer of the writer alone -/
theorem parseLoop_ofs (v : Jenv) (dir buf : List UInt8) : ∀ (fuel : Nat) (o : UInt32) (s s' : Jst),
    parseLoop v dir buf fuel o s = some s' → s'.ofs = s.ofs
  | 0, _, _, _, h => absurd h (by simp [parseLoop])
  | fuel + 1, o, s, s', h => by
    have ih := parseLoop_ofs v dir buf fuel
    unfold parseLoop at h
    split at h
    · obtain ⟨magic, -, h⟩ := Option.bind_eq_some_iff.mp h
      split at h
      · exact Option.some.inj h ▸ rfl
      obtain ⟨totlen, -, h⟩ := Option.bind_eq_some_iff.mp h
      obtain ⟨nodetype, -, h⟩ := Option.bind_eq_some_iff.mp h
      split at h
      · obtain ⟨s1, h1, h⟩ := Option.bind_eq_some_iff.mp h
        exact (ih _ _ _ h).trans (noteDirent_ofs h1)
      · exact ih _ _ _ h
    · exact Option.some.inj h ▸ rfl

variable {E : Nat}

/-- the numbers found in the blocks in front of the marker, the first one being block `i` -/
def scanFront (c : Cfg E) : Nat → List (List UInt8) → Jst → Option Jst
  | _, [], jst => some jst
  | i, blk :: rest, jst =>
    if c.jffs2SkipBytes ≤ (i * E : Nat) then
      (parseJffs2data ⟨E, c.big⟩ c.jffs2dir blk jst).bind (scanFront c (i + 1) rest)
    else scanFront c (i + 1) rest jst

theorem scanFront_ofs (c : Cfg E) : ∀ (bs : List (List UInt8)) (i : Nat) (jst jst' : Jst),
    scanFront c i bs jst = some jst' → jst'.ofs = jst.ofs
  | [], _, _, _, h => Option.some.inj h ▸ rfl
  | blk :: bs, i, jst, jst', h => by
    unfold scanFront at h
    split at h
    · obtain ⟨j, h1, h2⟩ := Option.bind_eq_some_iff.mp h
      exact (scanFront_ofs c bs _ j jst' h2).trans (parseLoop_ofs _ _ _ _ _ _ _ h1)
    · exact scanFront_ofs c bs _ jst jst' h

/-! ## a healthy device -/

/-- no bad blocks, no failures, and offsets that fit an `int` -/
structure Healthy (c : Chip) (E : Nat) : Prop where
  good : ∀ b, c.isBad b = false
  erase : ∀ b, c.eraseFails b = false
  write : ∀ b, c.writeFails b = false
  size : c.nblocks * E ≤ 2147483647

theorem Healthy.reach {d : Dev E} (h : Healthy d.chip E) : d.chip.reach E = d.chip.nblocks := by
  cases hn : d.chip.nand with
  | false => exact Chip.reach_nor hn E
  | true =>
    apply Nat.le_antisymm (d.chip.reach_le E)
    by_contra hlt
    have hb := (Chip.lt_reach d.erasesize hn (b := d.chip.reach E)).mpr
      ⟨by omega, Nat.le_trans (Nat.mul_le_mul_right E (d.chip.reach_le E)) h.size⟩
    omega

theorem Healthy.block_le {c : Chip} (h : Healthy c E) {b : Nat} (hb : b ≤ c.nblocks) :
    b * E ≤ 2147483647 := Nat.le_trans (Nat.mul_le_mul_right E hb) h.size

theorem advance_block {b : Nat} (h : (b + 1) * E ≤ 2147483647) :
    advance E (b * E : Nat) = .ok ((b + 1) * E : Nat) := by
  have hbE : ((b + 1) * E : Nat) = b * E + E := by rw [Nat.add_mul, Nat.one_mul]
  have ha : intAdd (b * E : Nat) E = some (((b + 1) * E : Nat) : Int) :=
    intAdd_eq_some.mpr ⟨by unfold inRange; omega, by omega⟩
  unfold advance
  rw [ha]

/-- one block through the device part of `pad` -/
theorem flush_run {d : Dev E} (h : Healthy d.chip E) {b : Nat} (hb : b < d.chip.nblocks)
    (hp : d.pos = b * E) {blk : List UInt8} (hl : blk.length = E) :
    ∃ d', flush d (b * E : Nat) blk = .ok (d', ((b + 1) * E : Nat)) ∧ d'.pos = (b + 1) * E ∧
      Wrote d d' [b] [blk] := by
  obtain ⟨d1, d2, h1, h2, h3, h4⟩ := wrote_block d hb (h.erase b) (h.write b) hp hl
  have hbad : blockIsBad d (b * E : Nat) = some false := by
    rw [blockIsBad_block d (by rw [h.reach]; exact hb), h.good b]
  have hs : skipBad (d.chip.nblocks + 1) d (b * E : Nat) = .ok (d, (b * E : Nat)) := by
    unfold skipBad
    rw [hbad]
    rfl
  refine ⟨d2, ?_, h3, h4⟩
  unfold flush
  rw [hs]
  show ((advance E (b * E : Nat)).bind fun m => .ok ((write ((eraseBlock d _).getD d) blk).2, m)) = _
  rw [advance_block (h.block_le hb), h1, Option.getD_some, h2]
  rfl

theorem flushAll_run : ∀ (bs : List (List UInt8)) (d : Dev E) (b : Nat), Healthy d.chip E →
    b + bs.length ≤ d.chip.nblocks → d.pos = b * E → (∀ blk ∈ bs, blk.length = E) →
    ∃ d', flushAll bs d (b * E : Nat) = .ok (d', ((b + bs.length) * E : Nat)) ∧
      d'.pos = (b + bs.length) * E ∧ Wrote d d' (List.range' b bs.length) bs
  | [], d, b, _, _, hp, _ => ⟨d, rfl, hp, Wrote.refl d⟩
  | blk :: bs, d, b, h, hb, hp, hl => by
    rw [List.length_cons] at hb ⊢
    obtain ⟨d1, h1, h2, h3⟩ := flush_run h (show b < d.chip.nblocks by omega) hp
      (hl blk List.mem_cons_self)
    obtain ⟨d2, h4, h5, h6⟩ := flushAll_run bs d1 (b + 1) (h3.chip ▸ h)
      (by rw [h3.chip]; omega) h2 fun x hx => hl x (List.mem_cons_of_mem blk hx)
    rw [show b + 1 + bs.length = b + (bs.length + 1) by omega] at h4 h5
    refine ⟨d2, ?_, h5, ?_⟩
    · unfold flushAll
      rw [h1]
      exact h4
    · rw [List.range'_succ]
      refine h3.trans h6 fun x hx hm => ?_
      have := List.mem_range'_1.mp hm
      rw [List.mem_singleton] at hx
      omega

/-! ## in front of the marker -/

/-- the block in the buffer is not the place for the file -/
theorem blockStep_front {c : Cfg E} {f : File} {s : St E} {i : Nat} (hs : s.skip ≤ 0)
    (hw : s.w = (i * E : Nat)) (hj : s.jffs2file = some f)
    (hm : c.jffs2SkipBytes ≤ (i * E : Nat) → s.buf.take 4 ≠ jffs2Eof) {rest : List (List UInt8)}
    {jst' : Jst} (hscan : scanFront c i (s.buf :: rest) s.jst = some jst') :
    ∃ jst, blockStep c s = .inl { s with pc := .erase, jst := jst } ∧
      scanFront c (i + 1) rest jst = some jst' := by
  unfold scanFront at hscan
  unfold blockStep
  rw [if_neg (by omega), hj, hw]
  simp only
  split at hscan
  · next hle =>
    obtain ⟨jst, h1, h2⟩ := Option.bind_eq_some_iff.mp hscan
    refine ⟨jst, ?_, h2⟩
    rw [if_pos hle, if_neg (hm hle), h1]
  · next hlt =>
    exact ⟨s.jst, by rw [if_neg hlt], hscan⟩

/-- one block in front of the marker -/
theorem front_block {c : Cfg E} (hc : c.noErase = false) {f : File} {s : St E} {i : Nat}
    (h : InFill s i) (hb : s.skipBadBlocks = 0) (hj : s.jffs2file = some f)
    (hh : Healthy s.dev.chip E) (hi : i < s.dev.chip.nblocks) {blk : List UInt8}
    {rest : List (List UInt8)} (hB : padBlocks E s.pending = blk :: rest)
    (hm : c.jffs2SkipBytes ≤ (i * E : Nat) → blk.take 4 ≠ jffs2Eof) {pre : List (List UInt8)}
    {jst' : Jst} (hscan : scanFront c i (blk :: pre) s.jst = some jst') :
    ∃ s', Leads (step c) s s' ∧ InFill s' (i + 1) ∧ s'.skipBadBlocks = 0 ∧
      padBlocks E s'.pending = rest ∧ Wrote s.dev s'.dev [i] [blk] ∧
      scanFront c (i + 1) pre s'.jst = some jst' ∧ Keeps s s' := by
  obtain ⟨hne, rfl, hrest⟩ := padBlocks_eq_cons s.dev.erasesize hB
  obtain ⟨reads, s1, h1, h2⟩ := fill_block c h.pc h.buf h.buflen hne
  have hw := h.w_eq hb
  obtain ⟨jst, h3, h4⟩ := blockStep_front (s := { s with
    pc := .check, buf := padTo E (s.pending.take E), buflen := E, img := s.pending.drop E,
    reads := reads }) h.skip hw hj hm hscan
  have hl2 := h1.trans (Leads.one (h2.trans h3))
  have hlen := padTo_take_length E s.pending
  have hin : InErase { s with
      pc := .erase, buf := padTo E (s.pending.take E), buflen := E, img := s.pending.drop E,
      reads := reads, jst := jst } i :=
    ⟨⟨h.e, h.w, h.pos, h.bads, h.skip, h.offset⟩, rfl, hlen, rfl⟩
  obtain ⟨d', h5, h6, h7⟩ := hin.place hc (by rw [hh.reach]; exact hi) (hh.good i) (hh.erase i)
    (hh.write i)
  exact ⟨_, hl2.trans h7, h6, hb, hrest, h5, h4, ⟨rfl, rfl, rfl, rfl⟩⟩

/-- **The front of the image.** -/
theorem front_run {c : Cfg E} (hc : c.noErase = false) {f : File} {rest : List (List UInt8)}
    {jst' : Jst} : ∀ (pre : List (List UInt8)) (i : Nat) (s : St E), InFill s i →
    s.skipBadBlocks = 0 → s.jffs2file = some f → Healthy s.dev.chip E →
    i + pre.length ≤ s.dev.chip.nblocks → padBlocks E s.pending = pre ++ rest →
    (∀ k blk, pre[k]? = some blk → c.jffs2SkipBytes ≤ ((i + k) * E : Nat) →
      blk.take 4 ≠ jffs2Eof) →
    scanFront c i pre s.jst = some jst' →
    ∃ s', Leads (step c) s s' ∧ InFill s' (i + pre.length) ∧ s'.skipBadBlocks = 0 ∧
      padBlocks E s'.pending = rest ∧ Wrote s.dev s'.dev (List.range' i pre.length) pre ∧
      s'.jst = jst' ∧ Keeps s s'
  | [], i, s, h, hb, hj, hh, hle, hB, hm, hscan =>
    ⟨s, Leads.refl s, h, hb, hB, Wrote.refl s.dev, Option.some.inj hscan, ⟨rfl, rfl, rfl, rfl⟩⟩
  | blk :: pre, i, s, h, hb, hj, hh, hle, hB, hm, hscan => by
    rw [List.length_cons] at hle ⊢
    obtain ⟨s1, h1, h2, h3, h4, h5, h6, h7⟩ := front_block hc h hb hj hh (by omega) hB
      (hm 0 blk rfl) hscan
    obtain ⟨s2, h8, h9, h10, h11, h12, h13, h14⟩ := front_run hc pre (i + 1) s1 h2 h3
      (h7.jffs2file.trans hj) (h5.chip ▸ hh) (by rw [h5.chip]; omega) h4
      (fun k b hk => by
        have := hm (k + 1) b hk
        rwa [show i + (k + 1) = i + 1 + k by omega] at this) h6
    rw [show i + 1 + pre.length = i + (pre.length + 1) by omega] at h9
    refine ⟨s2, h1.trans h8, h9, h10, h11, ?_, h13, h7.trans h14⟩
    rw [List.range'_succ]
    refine h5.trans h12 fun x hx hmem => ?_
    have := List.mem_range'_1.mp hmem
    rw [List.mem_singleton] at hx
    omega

/-! ## the marker -/

/-- at the top of the loop behind the file, with `k` blocks of the image to drop -/
structure Dropping (s : St E) (b k : Nat) : Prop where
  pc : s.pc = .fill
  buf : s.buf.length = E
  buflen : s.buflen ≤ E
  e : s.e = (b * E : Nat)
  w : s.w = (b * E : Nat)
  pos : s.dev.pos = b * E
  bads : s.skipBadBlocks = 0
  skip : s.skip = (k * E : Nat)
  offset : s.offset = 0
  jffs2file : s.jffs2file = none
  replaced : s.replaced = true

theorem replace_run {c : Cfg E} {f : File} {s : St E} {b : Nat} (h : InFill s b)
    (hb : s.skipBadBlocks = 0) (hj : s.jffs2file = some f) (hh : Healthy s.dev.chip E)
    {blk : List UInt8} {rest : List (List UInt8)} (hB : padBlocks E s.pending = blk :: rest)
    (hskip : c.jffs2SkipBytes ≤ (b * E : Nat)) (hm : blk.take 4 = jffs2Eof) {jst : Jst}
    (henc : encode ⟨E, c.big⟩ f c.junk { s.jst with out := [] } = some jst)
    (hlen : ∀ x ∈ jst.out, x.length = E) {n : Nat} (hn : jst.out.length = n + 1)
    (hcap : b + (n + 1) ≤ s.dev.chip.nblocks) :
    ∃ s', Leads (step c) s s' ∧ Dropping s' (b + (n + 1)) n ∧ padBlocks E s'.pending = rest ∧
      Wrote s.dev s'.dev (List.range' b (n + 1)) jst.out ∧ s'.left = s.left ∧ s'.next = s.next := by
  obtain ⟨hne, rfl, hrest⟩ := padBlocks_eq_cons s.dev.erasesize hB
  obtain ⟨reads, s1, h1, h2⟩ := fill_block c h.pc h.buf h.buflen hne
  have hw := h.w_eq hb
  have hbE : b * E ≤ 2147483647 := hh.block_le (by omega)
  have hwr : wrap s.e = (b * E : Nat) := by
    rw [h.e]
    exact wrap_of_inRange (by unfold inRange; omega)
  obtain ⟨d', h3, h4, h5⟩ := flushAll_run jst.out s.dev b hh (by omega) h.pos hlen
  rw [hn] at h3 h4 h5
  have hE := s.dev.erasesize
  have hmul : (b + (n + 1)) * E = b * E + (n * E + E) := by
    rw [Nat.add_mul, Nat.add_mul, Nat.one_mul]
  have hs := h.skip
  have hstep := h2
  unfold blockStep replaceStep at hstep
  simp only [hj] at hstep
  rw [if_neg (by omega), if_pos (by omega), if_pos hm] at hstep
  simp only [henc, hwr, h3] at hstep
  refine ⟨_, h1.trans (Leads.one hstep), ⟨rfl, ?_, Nat.zero_le E, ?_, ?_, h4, hb, ?_, rfl,
    rfl, rfl⟩, hrest, h5, rfl, rfl⟩
  · exact padTo_take_length E _
  · show s.e + (_ - _) = _
    rw [h.e]
    omega
  · show s.w + (_ - _) = _
    rw [hw]
    omega
  · show (((b + (n + 1)) * E : Nat) : Int) - (b * E : Nat) - (E : Nat) = _
    omega

/-- the image blocks that the file covers are dropped -/
theorem drop_run {c : Cfg E} {b : Nat} : ∀ (k : Nat) (s : St E), Dropping s b k →
    (∃ s', Leads (step c) s s' ∧ InFill s' b ∧ s'.jffs2file = none ∧
      padBlocks E s'.pending = (padBlocks E s.pending).drop k ∧ s'.dev = s.dev ∧ Keeps s s') ∨
    ((padBlocks E s.pending).drop k = [] ∧ Ends (step c) s (finish c s))
  | 0, s, h => by
    refine Or.inl ⟨s, Leads.refl s, ⟨⟨h.e, ?_, h.pos, ?_, ?_, h.offset⟩, h.pc, h.buf, h.buflen⟩,
      h.jffs2file, rfl, rfl, ⟨rfl, rfl, rfl, rfl⟩⟩
    · rw [h.w, h.e, h.bads]
      omega
    · rw [h.bads]
      omega
    · rw [h.skip, Nat.zero_mul]
      exact Int.le_refl 0
  | k + 1, s, h => by
    have hE := s.dev.erasesize
    have hmul : (k + 1) * E = k * E + E := by rw [Nat.add_mul, Nat.one_mul]
    have hsk := h.skip
    by_cases hne : s.pending = []
    · refine Or.inr ⟨?_, fill_end c h.pc h.buf h.buflen hne⟩
      rw [hne, padBlocks_nil, List.drop_nil]
    · obtain ⟨reads, s1, h1, h2⟩ := fill_block c h.pc h.buf h.buflen hne
      unfold blockStep at h2
      rw [if_pos (show s.skip > 0 by omega)] at h2
      have hl := h1.trans (Leads.one h2)
      have hpad := padTo_take_length E s.pending
      have hB : padBlocks E s.pending = padTo E (s.pending.take E) :: padBlocks E (s.pending.drop E) :=
        padBlocks_cons hE hne
      have hd : Dropping { s with
          pc := .fill, buf := padTo E (s.pending.take E), buflen := 0, img := s.pending.drop E,
          reads := reads, skip := s.skip - (E : Nat) } b k := by
        refine ⟨rfl, hpad, Nat.zero_le E, h.e, h.w, h.pos, h.bads, ?_, h.offset, h.jffs2file,
          h.replaced⟩
        show s.skip - (E : Nat) = _
        omega
      rw [hB, List.drop_succ_cons]
      rcases drop_run k _ hd with ⟨s', h3, h4, h5, h6, h7, h8⟩ | ⟨h3, h4⟩
      · exact Or.inl ⟨s', hl.trans h3, h4, h5, h6, h7, ⟨h8.left, h8.next, h8.jffs2file, h8.replaced⟩⟩
      · exact Or.inr ⟨h3, hl.ends_iff.mpr h4⟩

/-! ## the whole run -/

/-- the device at the end: the header of the image may be rewritten -/
def fixedUp (c : Cfg E) (d : Dev E) : Outcome E :=
  match c.imageformat with
  | .unknown => .ret [d]
  | f =>
    match c.fixup f with
    | some g =>
      match g d with
      | some d' => .ret [d']
      | none => .fault
    | none => .ret [d]

theorem finish_replaced {c : Cfg E} {s : St E} (hr : s.replaced = true) (hl : s.left = [])
    (hn : s.next = []) : finish c s = fixedUp c s.dev := by
  have hcase : ∀ o : Option (Dev E → Option (Dev E)),
      (match (match o with
        | some g => g s.dev
        | none => some s.dev) with
      | some d => Outcome.ret ([] ++ [d])
      | none => Outcome.fault) = match o with
        | some g =>
          match g s.dev with
          | some d' => .ret [d']
          | none => .fault
        | none => .ret [s.dev] := by
    intro o
    cases o with
    | none => rfl
    | some g => cases hg : g s.dev <;> simp only [hg, List.nil_append]
  unfold finish fixHeader fixedUp
  rw [hr, hl, hn, if_pos rfl]
  cases c.imageformat with
  | unknown => rfl
  | trx | seama | wrgg03 => exact hcase _

theorem good_all {d : Dev E} (h : Healthy d.chip E) (b : Nat) :
    d.chip.good b (d.chip.reach E) = List.range' b (d.chip.nblocks - b) := by
  unfold Chip.good
  rw [h.reach]
  refine List.filter_eq_self.mpr fun x _ => ?_
  rw [h.good x]
  rfl

/-- behind the file: blocks are dropped, the rest of the image follows -/
theorem rest_run {c : Cfg E} (hc : c.noErase = false) {s : St E} {b k : Nat} (h : Dropping s b k)
    (hh : Healthy s.dev.chip E) (hl : s.left = []) (hn : s.next = []) (hb : b ≤ s.dev.chip.nblocks)
    (hcap : b + ((padBlocks E s.pending).drop k).length ≤ s.dev.chip.nblocks) :
    ∃ d', Ends (step c) s (fixedUp c d') ∧
      Wrote s.dev d' (List.range' b ((padBlocks E s.pending).drop k).length)
        ((padBlocks E s.pending).drop k) := by
  rcases drop_run (c := c) k s h with ⟨s', h1, h2, h3, h4, h5, h6⟩ | ⟨h1, h2⟩
  · have hrun := fill_run hc (t := s'.dev.chip.reach E) (by rw [h5, hh.reach]; exact hb) h2 h3
      ⟨Nat.le_refl _, fun x _ _ => by rw [h5]; exact ⟨hh.erase x, hh.write x⟩⟩
    have hgood : s'.dev.chip.good b (s'.dev.chip.reach E) = List.range' b (s.dev.chip.nblocks - b) := by
      rw [h5, good_all hh]
    rw [h4] at hrun
    rcases hrun with ⟨-, d', h7, h8⟩ | ⟨h7, -⟩
    · rw [hgood, h5, List.take_range'_of_length_ge (by omega)] at h7
      refine ⟨d', h1.ends_iff.mpr ?_, ?_⟩
      · have hf : finish c { s' with dev := d' } = fixedUp c d' :=
          finish_replaced (h6.replaced.trans h.replaced) (h6.left.trans hl) (h6.next.trans hn)
        rw [← hf]
        exact h8
      · exact h7
    · rw [hgood, List.length_range'] at h7
      omega
  · rw [h1]
    refine ⟨s.dev, ?_, Wrote.refl s.dev⟩
    rw [← finish_replaced h.replaced hl hn]
    exact h2

/-- the three parts of the run: in front of the marker, the file, the rest of the image -/
theorem append_run {c : Cfg E} (hc : c.noErase = false) (hp : c.partOffset = 0)
    (hjunk : c.junk.length = E) (d : Dev E) (hh : Healthy d.chip E) {buf : List UInt8}
    {buflen : Nat} (hbuf : buf.length = E) (hlen : buflen ≤ E) (img : List UInt8) (f : File)
    {jst jst1 jst2 : Jst} (hofs : jst.ofs = 0) {pre rest : List (List UInt8)} {blk : List UInt8}
    (hB : padBlocks E (buf.take buflen ++ img) = pre ++ blk :: rest)
    (hfirst : ∀ k x, pre[k]? = some x → c.jffs2SkipBytes ≤ (k * E : Nat) → x.take 4 ≠ jffs2Eof)
    (hskip : c.jffs2SkipBytes ≤ (pre.length * E : Nat)) (hmark : blk.take 4 = jffs2Eof)
    (hscan : scanFront c 0 pre jst = some jst1)
    (henc : encode ⟨E, c.big⟩ f c.junk { jst1 with out := [] } = some jst2)
    (hcap : pre.length + jst2.out.length ≤ d.chip.nblocks)
    (hcap' : (pre ++ blk :: rest).length ≤ d.chip.nblocks) :
    ∃ d1 d2 d', Wrote d d1 (List.range' 0 pre.length) pre ∧
      Wrote d1 d2 (List.range' pre.length jst2.out.length) jst2.out ∧
      Wrote d2 d' (List.range' (pre.length + jst2.out.length)
        (rest.drop (jst2.out.length - 1)).length) (rest.drop (jst2.out.length - 1)) ∧
      Ends (step c) (start c d [] buf buflen img (some f) jst) (fixedUp c d') := by
  have hofs1 : jst1.ofs = 0 := (scanFront_ofs c pre 0 jst jst1 hscan).trans hofs
  obtain ⟨hlenOut, bs, hbs⟩ := encode_blocks d.erasesize hjunk
    (s := { jst1 with out := [] }) (by show jst1.ofs ≤ _; omega) rfl henc
  obtain ⟨n, hn⟩ : ∃ n, jst2.out.length = n + 1 := ⟨bs.length, by rw [hbs]; simp⟩
  obtain ⟨s1, h1, h2, h3, h4, h5, h6, h7⟩ := front_run hc pre 0
    (start c d [] buf buflen img (some f) jst) (inFill_start hp d [] hbuf hlen img (some f) jst) rfl
    rfl hh (by show 0 + _ ≤ d.chip.nblocks; omega) hB
    (fun k x hk => by rw [Nat.zero_add]; exact hfirst k x hk) hscan
  rw [Nat.zero_add] at h2
  have hchip1 : s1.dev.chip = d.chip := h5.chip
  obtain ⟨s2, h8, h9, h10, h11, h12, h13⟩ := replace_run (n := n) h2 h3 h7.jffs2file (hchip1 ▸ hh) h4
    hskip hmark (by rw [h6]; exact henc) hlenOut hn (by rw [hchip1, ← hn]; exact hcap)
  have hchip2 : s2.dev.chip = d.chip := h11.chip.trans hchip1
  have hlenB : (pre ++ blk :: rest).length = pre.length + (rest.length + 1) := by
    rw [List.length_append, List.length_cons]
  obtain ⟨d', h14, h15⟩ := rest_run hc h9 (hchip2 ▸ hh) (h12.trans h7.left) (h13.trans h7.next)
    (by rw [hchip2, ← hn]; exact hcap)
    (by rw [hchip2, h10, List.length_drop]; omega)
  rw [h10] at h15
  refine ⟨s1.dev, s2.dev, d', ⟨h5.chip, h5.data, h5.rest, h5.log⟩, ?_, ?_,
    (h1.trans h8).ends_iff.mpr h14⟩
  · rw [hn]
    exact h11
  · rw [hn]
    exact h15

theorem range'_disjoint {a b m n : Nat} (h : a + m ≤ b) :
    ∀ x ∈ List.range' a m, x ∉ List.range' b n := by
  intro x hx hm
  have hx := List.mem_range'_1.mp hx
  have hm := List.mem_range'_1.mp hm
  omega

/-- **Appending a file**: the image in front of the marker block, the encoding of the file from
there on, and behind it the image blocks that it does not cover, each block erased and written
once; then the header of the image is fixed up. -/
theorem append_places {c : Cfg E} (hc : c.noErase = false) (hp : c.partOffset = 0)
    (hjunk : c.junk.length = E) (d : Dev E) (hh : Healthy d.chip E) {buf : List UInt8}
    {buflen : Nat} (hbuf : buf.length = E) (hlen : buflen ≤ E) (img : List UInt8) (f : File)
    {jst jst1 jst2 : Jst} (hofs : jst.ofs = 0) {pre rest : List (List UInt8)} {blk : List UInt8}
    (hB : padBlocks E (buf.take buflen ++ img) = pre ++ blk :: rest)
    (hfirst : ∀ k x, pre[k]? = some x → c.jffs2SkipBytes ≤ (k * E : Nat) → x.take 4 ≠ jffs2Eof)
    (hskip : c.jffs2SkipBytes ≤ (pre.length * E : Nat)) (hmark : blk.take 4 = jffs2Eof)
    (hscan : scanFront c 0 pre jst = some jst1)
    (henc : encode ⟨E, c.big⟩ f c.junk { jst1 with out := [] } = some jst2)
    (hcap : pre.length + jst2.out.length ≤ d.chip.nblocks)
    (hcap' : (pre ++ blk :: rest).length ≤ d.chip.nblocks) :
    (∃ bs, jst2.out = bs ++ [padTo E jffs2Eof]) ∧ ∃ d',
      Ends (step c) (start c d [] buf buflen img (some f) jst) (fixedUp c d') ∧
      Wrote d d' (List.range (max (pre ++ blk :: rest).length (pre.length + jst2.out.length)))
        (pre ++ (jst2.out ++ (pre ++ blk :: rest).drop (pre.length + jst2.out.length))) := by
  have hofs1 : jst1.ofs = 0 := (scanFront_ofs c pre 0 jst jst1 hscan).trans hofs
  obtain ⟨-, bs, hbs⟩ := encode_blocks d.erasesize hjunk
    (s := { jst1 with out := [] }) (by show jst1.ofs ≤ _; omega) rfl henc
  obtain ⟨d1, d2, d', h1, h2, h3, h4⟩ := append_run hc hp hjunk d hh hbuf hlen img f hofs hB hfirst
    hskip hmark hscan henc hcap hcap'
  obtain ⟨n, hn⟩ : ∃ n, jst2.out.length = n + 1 := ⟨bs.length, by rw [hbs]; simp⟩
  rw [hn, Nat.add_sub_cancel] at h3
  rw [hn] at h2
  refine ⟨⟨bs, hbs⟩, d', h4, ?_⟩
  have hdrop : rest.drop n = (pre ++ blk :: rest).drop (pre.length + (n + 1)) := by
    rw [List.drop_length_add_append, List.drop_succ_cons]
  have htail := h2.trans h3 (range'_disjoint (Nat.le_refl _))
  rw [List.range'_append_1] at htail
  have hall := h1.trans htail (range'_disjoint (by omega))
  have hr := List.range'_append_1 (s := 0) (m := pre.length) (n := n + 1 + (rest.drop n).length)
  rw [Nat.zero_add] at hr
  rw [hr] at hall
  rw [hn, ← hdrop, List.range_eq_range', List.length_append, List.length_cons,
    show max (pre.length + (rest.length + 1)) (pre.length + (n + 1))
      = pre.length + (n + 1 + (rest.drop n).length) by rw [List.length_drop]; omega]
  exact hall

/-! ## the header of a TRX image -/

/-- `trx_fixup`: the checksum of the header, over the mapped device -/
def trxFixup (big : Bool) (d : Dev E) : Option (Dev E) :=
  if d.mem.length = 0 then some d
  else do
    let magic ← load32 big d.mem 0
    if magic ≠ 0x30524448 then some d
    else
      let len ← load32 big d.mem 4
      let data ← load d.mem 12 (wrap (len.toNat - 12)).toNat
      match h : store32 big d.mem 8 (crc32 0xffffffff data) with
      | some mem => some { d with mem := mem, size := (store_length h).trans d.size }
      | none => none

/-- the fix-up functions of a build with `trx.o` -/
def trxCfg : Cfg 256 where
  big := false
  noErase := false
  partOffset := 0
  jffs2SkipBytes := 256
  jffs2dir := [116, 109, 112]
  imageformat := .trx
  fixup := fun f => if f = .trx then some (trxFixup false) else none
  junk := List.replicate 256 0
  sched := fun _ => 0

/-- a header with a checksum of zero over its own 28 bytes -/
def trxHead : List UInt8 :=
  [0x48, 0x44, 0x52, 0x30, 28, 0, 0, 0, 0, 0, 0, 0] ++ List.replicate 244 0

def trxMark : List UInt8 := jffs2Eof ++ List.replicate 252 0

def trxFile : File := ⟨[97], [], stat0⟩

def trxDev : Dev 256 :=
  ⟨⟨8, false, fun _ => false, fun _ => false, fun _ => false⟩, by decide, by decide,
    List.replicate (8 * 256) 0, List.length_replicate, 0, []⟩

theorem trxDev_healthy : Healthy trxDev.chip 256 :=
  ⟨fun _ => rfl, fun _ => rfl, fun _ => rfl, by decide⟩

theorem trx_blocks : padBlocks 256 (trxHead.take 256 ++ trxMark) = [trxHead] ++ trxMark :: [] := by
  decide +kernel

theorem trx_encode : ∃ jst, encode ⟨256, trxCfg.big⟩ trxFile trxCfg.junk { jst0 with out := [] }
    = some jst ∧ jst.out.length = 2 := by
  have h : (encode ⟨256, trxCfg.big⟩ trxFile trxCfg.junk { jst0 with out := [] }).map
      (fun j => j.out.length) = some 2 := by decide +kernel
  exact Option.map_eq_some_iff.mp h

theorem trxHead_length : trxHead.length = 256 := by
  unfold trxHead
  rw [List.length_append, List.length_replicate]
  rfl

theorem trx_first {l : List UInt8} : ∀ k x, [l][k]? = some x →
    trxCfg.jffs2SkipBytes ≤ (k * 256 : Nat) → x.take 4 ≠ jffs2Eof := by
  intro k x hk hle
  cases k with
  | zero => exact absurd hle (by decide)
  | succ k => exact absurd hk (by simp)

theorem append_places_trx : ∃ jst2 d',
    Ends (step trxCfg) (start trxCfg trxDev [] trxHead 256 trxMark (some trxFile) jst0)
      (fixedUp trxCfg d') ∧ Wrote trxDev d' (List.range 3) (trxHead :: (jst2 : Jst).out) := by
  obtain ⟨jst2, henc, hout⟩ := trx_encode
  obtain ⟨-, d', h1, h2⟩ := append_places rfl rfl List.length_replicate trxDev trxDev_healthy
    trxHead_length (Nat.le_refl 256) trxMark trxFile (show jst0.ofs = 0 from rfl) trx_blocks trx_first
    (by decide) rfl rfl henc (by rw [hout]; decide) (by decide)
  refine ⟨jst2, d', h1, ?_⟩
  rw [hout, List.drop_eq_nil_of_le (by decide), List.append_nil] at h2
  exact h2

/-- the fix-up puts the checksum into the header -/
theorem trxFixup_head {d d' : Dev 256} (h : d.block 0 = trxHead) (hf : trxFixup false d = some d') :
    d'.block 0 ≠ trxHead := by
  have htake : d.mem.take 256 = trxHead := h
  have hm : d.mem = trxHead ++ d.mem.drop 256 := by rw [← htake, List.take_append_drop]
  have hpos : d.mem.length ≠ 0 := by
    rw [hm, List.length_append, trxHead_length]
    omega
  have h1 : load32 false d.mem 0 = some 0x30524448 := by
    rw [hm]
    exact load32_append_left (by decide +kernel)
  have h2 : load32 false d.mem 4 = some 28 := by
    rw [hm]
    exact load32_append_left (by decide +kernel)
  have h3 : load d.mem 12 16 = some (List.replicate 16 0) := by
    rw [hm]
    exact load_append_left (by decide +kernel)
  have hw : (wrap ((28 : UInt32).toNat - 12)).toNat = 16 := by decide
  unfold trxFixup at hf
  rw [if_neg hpos] at hf
  simp only [h1, h2, hw, h3, Option.bind_eq_bind, Option.bind_some, ne_eq, not_true_eq_false,
    if_false] at hf
  split at hf
  · next mem hst =>
    rw [← Option.some.inj hf]
    intro he
    obtain ⟨hle, rfl⟩ := store_eq_some.mp hst
    have hs := slice_poke_self d.mem 8 (put32 false (crc32 0xffffffff (List.replicate 16 0))) hle
    have he' : (poke d.mem 8 (put32 false (crc32 0xffffffff (List.replicate 16 0)))).take 256
        = trxHead := he
    rw [put32_length] at hs
    have hsub : slice (poke d.mem 8 (put32 false (crc32 0xffffffff (List.replicate 16 0)))) 8 4
        = slice trxHead 8 4 := by
      rw [← he']
      unfold slice
      rw [List.drop_take, List.take_take]
      rfl
    rw [hs] at hsub
    have hz : get32 false (put32 false (crc32 0xffffffff (List.replicate 16 0)))
        = get32 false (slice trxHead 8 4) := by rw [hsub]
    rw [get32_put32] at hz
    exact absurd hz (by decide +kernel)
  · exact absurd hf (by simp)

/-- the fix-up changes the first block of the image -/
theorem append_trx : ¬ ∃ d',
    Ends (step trxCfg) (start trxCfg trxDev [] trxHead 256 trxMark (some trxFile) jst0)
      (.ret [d']) ∧ d'.block 0 = trxHead := by
  rintro ⟨d0, he, hblk⟩
  obtain ⟨jst2, henc, hout⟩ := trx_encode
  obtain ⟨d1, d2, d', h1, h2, h3, h4⟩ := append_run rfl rfl List.length_replicate trxDev trxDev_healthy
    trxHead_length (Nat.le_refl 256) trxMark trxFile (show jst0.ofs = 0 from rfl) trx_blocks trx_first
    (by decide) rfl rfl henc (by rw [hout]; decide) (by decide)
  rw [hout] at h2 h3
  have hd : d'.block 0 = trxHead := by
    rw [h3.rest 0 (by decide), h2.rest 0 (by decide)]
    exact (List.cons.inj h1.data).1
  have hend := he.unique h4
  cases hf : trxFixup false d' with
  | none =>
    have : fixedUp trxCfg d' = .fault := by
      unfold fixedUp
      simp only [trxCfg, if_pos, hf]
    rw [this] at hend
    exact absurd hend (by simp)
  | some d'' =>
    have : fixedUp trxCfg d' = .ret [d''] := by
      unfold fixedUp
      simp only [trxCfg, if_pos, hf]
    rw [this] at hend
    have heq : d0 = d'' := (List.cons.inj (Outcome.ret.inj hend)).1
    exact trxFixup_head hd hf (heq ▸ hblk)

end Mtd
