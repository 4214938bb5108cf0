import Firmware.Mtd.Append
import Firmware.Mtd.Jffs2write

/-!
# mtd: what `jffs2write` reports

`pad` cannot report anything, and `mtd_write_jffs2` returns 0 whenever it gets to its end.

* `Chip.unskipped`    the blocks on which the loop of `pad` over bad blocks stops;
* `skipBad_stops`     that loop;
* `flush_wrote`, `flush_counted`   one block: it lands, or the log is short of an entry;
* `landed_iff`        all blocks: exactly when the log is complete, they went to the blocks in order;
* `success_iff`       when a reported success is one.
-/

set_option linter.unusedVariables false

namespace Mtd
open Img Word CInt Blocks

variable {E : Nat}

/-! ## the property, and its condition -/

/-- a bad block is skipped below `mtdsize`, which is an `int` -/
def Chip.skipped (c : Chip) (E b : Nat) : Bool :=
  c.isBad b && decide (((b * E : Nat) : Int) < wrap (c.nblocks * E : Nat))

/-- the blocks from `k` on that are not -/
def Chip.unskipped (c : Chip) (E k : Nat) : List Nat :=
  (List.range' k (c.nblocks - k)).filter fun b => !c.skipped E b

/-- the block without a magic where the file system ends -/
def fsEnd (c : Job E) (d : Dev E) : Nat :=
  ((blocks E d.mem).takeWhile fun b => load16 c.big b 0 = some jffs2MagicBitmask).length

/-- the erase blocks that are handed to `pad`: those of the nodes, and one with the EOF marker -/
def handedOut (c : Job E) (d : Dev E) : List (List UInt8) :=
  match scanFs c.env c.dir (blocks E d.mem) 0 (statics c.dir) with
  | .ok (.free, _, s) => ((appendNodes c s).map Jst.out).getD []
  | _ => []

/-- **The data is on flash**: the file could be opened, and every block was erased and written as a
whole, to good blocks of the device -/
structure OnFlash (c : Job E) (d d' : Dev E) : Prop where
  opened : c.stat.isSome = true ∧ c.content.isSome = true
  landed : ∃ bs, (∀ b ∈ bs, b < d.chip.nblocks ∧ d.chip.isBad b = false) ∧
    Wrote d d' bs (handedOut c d)

/-- the file can be opened; from the end of the file system on there is room for all blocks, and
where they go nothing is bad or fails -/
structure CanLand (c : Job E) (d : Dev E) : Prop where
  opened : c.stat.isSome = true ∧ c.content.isSome = true
  room : (handedOut c d).length ≤ (d.chip.unskipped E (fsEnd c d)).length
  sound : ∀ b ∈ (d.chip.unskipped E (fsEnd c d)).take (handedOut c d).length,
    d.chip.isBad b = false ∧ d.chip.eraseFails b = false ∧ d.chip.writeFails b = false

/-! ## bad blocks -/

theorem Chip.unskipped_end (c : Chip) {k : Nat} (h : c.nblocks ≤ k) : c.unskipped E k = [] := by
  unfold Chip.unskipped
  rw [Nat.sub_eq_zero_of_le h]
  rfl

theorem Chip.unskipped_cons (c : Chip) {k : Nat} (h : k < c.nblocks) :
    c.unskipped E k = if c.skipped E k then c.unskipped E (k + 1) else k :: c.unskipped E (k + 1) := by
  unfold Chip.unskipped
  rw [show c.nblocks - k = c.nblocks - (k + 1) + 1 by omega, List.range'_succ, List.filter_cons]
  cases c.skipped E k <;> rfl

theorem Chip.le_of_unskipped {c : Chip} {k b : Nat} (h : b ∈ c.unskipped E k) :
    k ≤ b ∧ b < c.nblocks := by
  unfold Chip.unskipped at h
  have := List.mem_range'_1.mp (List.mem_of_mem_filter h)
  omega

/-- the answer about the block at an `int` offset -/
theorem blockIsBad_int (d : Dev E) {k : Nat} (hk : k * E ≤ 2147483647) {bad : Bool}
    (h : blockIsBad d (k * E : Nat) = some bad) :
    (k < d.chip.nblocks → bad = d.chip.isBad k) ∧ (bad = true → k < d.chip.nblocks) := by
  have hE := d.erasesize
  cases hn : d.chip.nand with
  | false =>
    rw [blockIsBad_nor d hn] at h
    obtain rfl := Option.some.inj h
    refine ⟨fun _ => ?_, fun e => absurd e (by simp)⟩
    unfold Chip.isBad
    rw [hn]
    rfl
  | true =>
    have hlt : k < d.chip.nblocks := by
      by_contra hge
      unfold blockIsBad at h
      rw [if_pos hn, wrap_of_inRange (by unfold inRange; omega)] at h
      simp only at h
      rw [if_neg] at h
      · exact absurd h (by simp)
      · rintro ⟨-, h2⟩
        rw [d.size] at h2
        have := Nat.mul_le_mul_right E (Nat.le_of_not_lt hge)
        omega
    have hr : k < d.chip.reach E := (Chip.lt_reach hE hn).mpr ⟨hlt, hk⟩
    rw [blockIsBad_block d hr] at h
    exact ⟨fun _ => (Option.some.inj h).symm, fun _ => hlt⟩

theorem advance_ok {k : Nat} {m : Int} (h : advance E (k * E : Nat) = .ok m) :
    m = ((k + 1) * E : Nat) ∧ (k + 1) * E ≤ 2147483647 := by
  have hkE : (k + 1) * E = k * E + E := by rw [Nat.add_mul, Nat.one_mul]
  unfold advance at h
  split at h
  · next m' ha =>
    obtain ⟨hr, he⟩ := intAdd_eq_some.mp ha
    have := hr.2
    obtain rfl := Except.ok.inj h
    exact ⟨by omega, by omega⟩
  · exact absurd h (by simp)

/-- one turn of the loop over bad blocks -/
theorem skipBad_turn {fuel : Nat} {d : Dev E} {m : Int} {r : Dev E × Int}
    (h : skipBad (fuel + 1) d m = .ok r) : ∃ bad, blockIsBad d m = some bad ∧
      ((bad = true ∧ m < wrap d.mem.length) ∧
        (∃ m1, advance E m = .ok m1 ∧ skipBad fuel (seekCur d E) m1 = .ok r) ∨
      ¬ (bad = true ∧ m < wrap d.mem.length) ∧ r = (d, m)) := by
  unfold skipBad at h
  cases hb : blockIsBad d m with
  | none =>
    rw [hb] at h
    exact absurd h (by simp)
  | some bad =>
    rw [hb] at h
    simp only at h
    refine ⟨bad, rfl, ?_⟩
    split at h
    · next hc => exact Or.inl ⟨hc, bind_ok h⟩
    · next hc => exact Or.inr ⟨hc, (Except.ok.inj h).symm⟩

/-- **The loop over bad blocks** stops on the first block that is not skipped, or at the end. -/
theorem skipBad_stops : ∀ (fuel : Nat) (d : Dev E) (k : Nat) {d1 : Dev E} {m : Int},
    d.pos = k * E → k * E ≤ 2147483647 → d.chip.nblocks < fuel + k →
    skipBad fuel d (k * E : Nat) = .ok (d1, m) → ∃ k', k ≤ k' ∧ m = (k' * E : Nat) ∧
      k' * E ≤ 2147483647 ∧ d1 = { d with pos := k' * E } ∧
      d.chip.unskipped E k = d.chip.unskipped E k' ∧
      (k' < d.chip.nblocks → d.chip.skipped E k' = false)
  | 0, d, k, d1, m, hp, hk, hf, h => by
    obtain ⟨rfl, rfl⟩ := Prod.mk.inj (Except.ok.inj h)
    exact ⟨k, Nat.le_refl k, rfl, hk, by rw [← hp], rfl, fun hlt => absurd hlt (by omega)⟩
  | fuel + 1, d, k, d1, m, hp, hk, hf, h => by
    obtain ⟨bad, hb, hcase⟩ := skipBad_turn h
    obtain ⟨h1, h2⟩ := blockIsBad_int d hk hb
    have hs : k < d.chip.nblocks → (d.chip.skipped E k = true ↔
        (bad = true ∧ ((k * E : Nat) : Int) < wrap d.mem.length)) := by
      intro hlt
      unfold Chip.skipped
      rw [h1 hlt, d.size, Bool.and_eq_true, decide_eq_true_eq]
    rcases hcase with ⟨hc, m1, ha, h⟩ | ⟨hc, h⟩
    · have hlt := h2 hc.1
      obtain ⟨rfl, hk1⟩ := advance_ok ha
      obtain ⟨k', h3, h4, h5, h6, h7, h8⟩ := skipBad_stops fuel (seekCur d E) (k + 1)
        (by rw [Nat.add_mul, Nat.one_mul, ← hp]; rfl) hk1 (by show d.chip.nblocks < _; omega) h
      refine ⟨k', by omega, h4, h5, h6, ?_, h8⟩
      rw [Chip.unskipped_cons _ hlt, if_pos ((hs hlt).mpr hc)]
      exact h7
    · obtain ⟨rfl, rfl⟩ := Prod.mk.inj h
      refine ⟨k, Nat.le_refl k, rfl, hk, by rw [← hp], rfl, fun hlt => ?_⟩
      rw [← Bool.not_eq_true]
      exact fun e => hc ((hs hlt).mp e)

/-! ## one block -/

/-- an erase that is not refused is logged -/
theorem eraseBlock_log {d d1 : Dev E} {k : Nat} (hk : k * E ≤ 2147483647)
    (h : eraseBlock d (k * E : Nat) = some d1) : k < d.chip.nblocks ∧ d.chip.eraseFails k = false ∧
      d1.chip = d.chip ∧ d1.log.length = d.log.length + 1 ∧ d1.pos = d.pos := by
  have hE := d.erasesize
  have hs : eraseStart (k * E : Nat) = k * E := by
    unfold eraseStart
    omega
  unfold eraseBlock at h
  split at h
  · next hc =>
    rw [hs, Nat.mul_div_cancel k hE, d.size] at hc
    obtain rfl := Option.some.inj h
    refine ⟨?_, hc.2, rfl, ?_, rfl⟩
    · have : k * E < d.chip.nblocks * E := by omega
      exact Nat.lt_of_mul_lt_mul_right this
    · exact List.length_append
  · exact absurd h (by simp)

/-- so is a write -/
theorem write_log (d : Dev E) (data : List UInt8) :
    (write d data).2.chip = d.chip ∧
      ((write d data).2.log.length = d.log.length ∨
        (write d data).2.log.length = d.log.length + 1 ∧ d.chip.writeFails (d.pos / E) = false) := by
  unfold write
  split
  · next hc => exact ⟨rfl, Or.inr ⟨List.length_append, hc.2⟩⟩
  · exact ⟨rfl, Or.inl rfl⟩

/-- the device part of `pad` -/
theorem flush_parts {d d' : Dev E} {m m' : Int} {blk : List UInt8}
    (h : flush d m blk = .ok (d', m')) :
    ∃ d1 m1, skipBad (d.chip.nblocks + 1) d m = .ok (d1, m1) ∧ advance E m1 = .ok m' ∧
      d' = (write ((eraseBlock d1 m1).getD d1) blk).2 := by
  unfold flush at h
  obtain ⟨⟨d1, m1⟩, hs, h⟩ := bind_ok h
  obtain ⟨m2, ha, h⟩ := bind_ok h
  obtain ⟨rfl, rfl⟩ := Prod.mk.inj (Except.ok.inj h)
  exact ⟨d1, m1, hs, ha, rfl⟩

/-- one block, on whatever the loop stops -/
theorem flush_stops {d d' : Dev E} {k : Nat} {m : Int} {blk : List UInt8} (hp : d.pos = k * E)
    (hk : k * E ≤ 2147483647) (h : flush d (k * E : Nat) blk = .ok (d', m)) : ∃ k', k ≤ k' ∧
      m = ((k' + 1) * E : Nat) ∧ (k' + 1) * E ≤ 2147483647 ∧
      d' = (write ((eraseBlock { d with pos := k' * E } (k' * E : Nat)).getD { d with pos := k' * E })
        blk).2 ∧
      d.chip.unskipped E k = d.chip.unskipped E k' ∧
      (k' < d.chip.nblocks → d.chip.skipped E k' = false) := by
  obtain ⟨d1, m1, hs, ha, hd⟩ := flush_parts h
  obtain ⟨k', h1, rfl, h2, rfl, h3, h4⟩ := skipBad_stops _ d k hp hk (by omega) hs
  obtain ⟨rfl, h5⟩ := advance_ok ha
  exact ⟨k', h1, rfl, h5, hd, h3, h4⟩

/-- the rest of the device is good for `n` blocks -/
structure Takes (c : Chip) (E k n : Nat) : Prop where
  room : n ≤ (c.unskipped E k).length
  works : ∀ b ∈ (c.unskipped E k).take n, c.eraseFails b = false ∧ c.writeFails b = false

/-- on the block `b` the position is right, and nothing fails -/
theorem flush_wrote {d d1 : Dev E} {b : Nat} {blk : List UInt8} (hb : b < d.chip.nblocks)
    (he : d.chip.eraseFails b = false) (hw : d.chip.writeFails b = false) (hl : blk.length = E)
    (h : d1 = (write ((eraseBlock { d with pos := b * E } (b * E : Nat)).getD { d with pos := b * E })
      blk).2) : Wrote d d1 [b] [blk] ∧ d1.pos = (b + 1) * E := by
  obtain ⟨d2, d3, h1, h2, h3, h4⟩ := wrote_block { d with pos := b * E } hb he hw rfl hl
  rw [h1, Option.getD_some, h2] at h
  rw [h]
  exact ⟨⟨h4.chip, h4.data, h4.rest, h4.log⟩, h3⟩

/-- two entries in the log tell that nothing failed -/
theorem flush_counted {d d1 : Dev E} {b : Nat} {blk : List UInt8} (hb : b * E ≤ 2147483647)
    (h : d1 = (write ((eraseBlock { d with pos := b * E } (b * E : Nat)).getD { d with pos := b * E })
      blk).2) (hlog : d.log.length + 2 ≤ d1.log.length) :
    b < d.chip.nblocks ∧ d.chip.eraseFails b = false ∧ d.chip.writeFails b = false := by
  cases he : eraseBlock { d with pos := b * E } (b * E : Nat) with
  | none =>
    rw [he, Option.getD_none] at h
    obtain ⟨-, hw | ⟨hw, -⟩⟩ := write_log { d with pos := b * E } blk
    · rw [← h] at hw
      have : d1.log.length = d.log.length := hw
      omega
    · rw [← h] at hw
      have : d1.log.length = d.log.length + 1 := hw
      omega
  | some d2 =>
    obtain ⟨h1, h2, h3, h4, h5⟩ := eraseBlock_log hb he
    rw [he, Option.getD_some] at h
    have h4' : d2.log.length = d.log.length + 1 := h4
    obtain ⟨-, hw | ⟨-, hw⟩⟩ := write_log d2 blk
    · rw [← h] at hw
      omega
    · rw [h5, h3] at hw
      show _ ∧ _ ∧ _
      rw [show ({ d with pos := b * E } : Dev E).pos = b * E from rfl, Nat.mul_div_cancel b d.erasesize] at hw
      exact ⟨h1, h2, hw⟩

/-! ## the log of a run, whatever the position -/

theorem skipBad_log : ∀ (fuel : Nat) (d : Dev E) (m : Int) {d1 : Dev E} {m1 : Int},
    skipBad fuel d m = .ok (d1, m1) → d1.log = d.log
  | 0, d, m, d1, m1, h => by
    obtain ⟨rfl, -⟩ := Prod.mk.inj (Except.ok.inj h)
    rfl
  | fuel + 1, d, m, d1, m1, h => by
    obtain ⟨bad, -, hcase⟩ := skipBad_turn h
    rcases hcase with ⟨-, m2, -, h⟩ | ⟨-, h⟩
    · exact skipBad_log fuel (seekCur d E) m2 h
    · rw [(Prod.mk.inj h).1]

theorem flush_bound {d d' : Dev E} {m m' : Int} {blk : List UInt8}
    (h : flush d m blk = .ok (d', m')) : d'.log.length ≤ d.log.length + 2 := by
  obtain ⟨d1, m1, hs, -, rfl⟩ := flush_parts h
  have hl := skipBad_log _ d m hs
  have he : ((eraseBlock d1 m1).getD d1).log.length ≤ d1.log.length + 1 := by
    unfold eraseBlock
    split
    · exact Nat.le_of_eq List.length_append
    · exact Nat.le_succ _
  rw [hl] at he
  rcases (write_log ((eraseBlock d1 m1).getD d1) blk).2 with hw | ⟨hw, -⟩ <;> omega

/-- one block after the other -/
theorem flushAll_cons {d d1 : Dev E} {m m1 : Int} {blk : List UInt8} {B : List (List UInt8)}
    (h : flushAll (blk :: B) d m = .ok (d1, m1)) :
    ∃ d' m', flush d m blk = .ok (d', m') ∧ flushAll B d' m' = .ok (d1, m1) := by
  unfold flushAll at h
  obtain ⟨⟨d', m'⟩, hf, h⟩ := bind_ok h
  exact ⟨d', m', hf, h⟩

theorem flushAll_bound : ∀ (B : List (List UInt8)) (d : Dev E) (m : Int) {d1 : Dev E} {m1 : Int},
    flushAll B d m = .ok (d1, m1) → d1.log.length ≤ d.log.length + 2 * B.length
  | [], d, m, d1, m1, h => by
    obtain ⟨rfl, -⟩ := Prod.mk.inj (Except.ok.inj h)
    exact Nat.le_refl _
  | blk :: B, d, m, d1, m1, h => by
    obtain ⟨d', m', h1, h2⟩ := flushAll_cons h
    have h3 := flush_bound h1
    have h4 := flushAll_bound B d' m' h2
    rw [List.length_cons]
    omega

/-! ## all blocks -/

/-- **All blocks land** on the next blocks of the device. -/
theorem flushAll_wrote : ∀ (B : List (List UInt8)) (d : Dev E) (k : Nat) {d1 : Dev E} {m : Int},
    d.pos = k * E → k * E ≤ 2147483647 → (∀ blk ∈ B, blk.length = E) →
    flushAll B d (k * E : Nat) = .ok (d1, m) → Takes d.chip E k B.length →
    Wrote d d1 ((d.chip.unskipped E k).take B.length) B
  | [], d, k, d1, m, _, _, _, h, _ => by
    obtain ⟨rfl, -⟩ := Prod.mk.inj (Except.ok.inj h)
    rw [List.length_nil, List.take_zero]
    exact Wrote.refl d
  | blk :: B, d, k, d1, m, hp, hk, hl, h, ht => by
    obtain ⟨d', m', h1, h2⟩ := flushAll_cons h
    obtain ⟨b, h3, rfl, h4, h5, h6, h7⟩ := flush_stops hp hk h1
    obtain ⟨hroom, hworks⟩ := ht
    rw [List.length_cons] at hroom hworks ⊢
    have hb : b < d.chip.nblocks := by
      by_contra hge
      rw [h6, Chip.unskipped_end _ (Nat.le_of_not_lt hge)] at hroom
      exact absurd hroom (by simp)
    have hcons : d.chip.unskipped E k = b :: d.chip.unskipped E (b + 1) := by
      rw [h6, Chip.unskipped_cons _ hb, h7 hb]
      rfl
    rw [hcons, List.length_cons] at hroom
    rw [hcons, List.take_succ_cons] at hworks ⊢
    obtain ⟨he, hw⟩ := hworks b List.mem_cons_self
    obtain ⟨hwr, hpos⟩ := flush_wrote hb he hw (hl blk List.mem_cons_self) h5
    have ih := flushAll_wrote B d' (b + 1) hpos h4 (fun x hx => hl x (List.mem_cons_of_mem blk hx)) h2
      (by
        rw [hwr.chip]
        exact ⟨Nat.le_of_succ_le_succ hroom, fun x hx => hworks x (List.mem_cons_of_mem b hx)⟩)
    rw [hwr.chip] at ih
    refine hwr.trans ih fun x hx hm => ?_
    have := Chip.le_of_unskipped (List.mem_of_mem_take hm)
    rw [List.mem_singleton] at hx
    omega

/-- **A complete log** tells that the next blocks of the device took them. -/
theorem flushAll_counted : ∀ (B : List (List UInt8)) (d : Dev E) (k : Nat) {d1 : Dev E} {m : Int},
    d.pos = k * E → k * E ≤ 2147483647 → (∀ blk ∈ B, blk.length = E) →
    flushAll B d (k * E : Nat) = .ok (d1, m) → d.log.length + 2 * B.length ≤ d1.log.length →
    Takes d.chip E k B.length
  | [], d, k, d1, m, _, _, _, _, _ => ⟨Nat.zero_le _, fun b hb => absurd hb (by simp)⟩
  | blk :: B, d, k, d1, m, hp, hk, hl, h, hlog => by
    obtain ⟨d', m', h1, h2⟩ := flushAll_cons h
    obtain ⟨b, h3, rfl, h4, h5, h6, h7⟩ := flush_stops hp hk h1
    have hle := flush_bound h1
    have hle' := flushAll_bound B d' _ h2
    rw [List.length_cons] at hlog ⊢
    have hbE : b * E ≤ 2147483647 := Nat.le_trans (Nat.mul_le_mul_right E (Nat.le_succ b)) h4
    obtain ⟨hb, he, hw⟩ := flush_counted hbE h5 (by omega)
    have hcons : d.chip.unskipped E k = b :: d.chip.unskipped E (b + 1) := by
      rw [h6, Chip.unskipped_cons _ hb, h7 hb]
      rfl
    obtain ⟨hwr, hpos⟩ := flush_wrote hb he hw (hl blk List.mem_cons_self) h5
    obtain ⟨hroom, hworks⟩ := flushAll_counted B d' (b + 1) hpos h4
      (fun x hx => hl x (List.mem_cons_of_mem blk hx)) h2 (by omega)
    rw [hwr.chip] at hroom hworks
    constructor
    · rw [hcons, List.length_cons]
      exact Nat.succ_le_succ hroom
    · rw [hcons, List.take_succ_cons]
      intro x hx
      rcases List.mem_cons.mp hx with rfl | hx
      · exact ⟨he, hw⟩
      · exact hworks x hx

theorem events_length (bs : List Nat) :
    (bs.flatMap fun b => [Event.erase b, Event.write b]).length = 2 * bs.length := by
  induction bs with
  | nil => rfl
  | cons b bs ih =>
    rw [List.flatMap_cons, List.length_append, ih]
    show 2 + 2 * bs.length = 2 * (bs.length + 1)
    omega

theorem events_inj : ∀ {as bs : List Nat}, (as.flatMap fun b => [Event.erase b, Event.write b])
    = (bs.flatMap fun b => [Event.erase b, Event.write b]) → as = bs
  | [], [], _ => rfl
  | [], b :: bs, h => absurd h (by simp)
  | a :: as, [], h => absurd h (by simp)
  | a :: as, b :: bs, h => by
    rw [List.flatMap_cons, List.flatMap_cons] at h
    obtain ⟨h1, h2⟩ := List.append_inj h rfl
    rw [events_inj h2, Event.erase.inj (List.cons.inj h1).1]

/-- the device part: the blocks landed on good blocks exactly when nothing was in the way -/
theorem landed_iff {B : List (List UInt8)} {d d1 : Dev E} {k : Nat} {m : Int} (hp : d.pos = k * E)
    (hk : k * E ≤ 2147483647) (hl : ∀ blk ∈ B, blk.length = E)
    (h : flushAll B d (k * E : Nat) = .ok (d1, m)) :
    (∃ bs, (∀ b ∈ bs, b < d.chip.nblocks ∧ d.chip.isBad b = false) ∧ Wrote d d1 bs B) ↔
      Takes d.chip E k B.length ∧
        ∀ b ∈ (d.chip.unskipped E k).take B.length, d.chip.isBad b = false := by
  constructor
  · rintro ⟨bs, hg, hw⟩
    have hlen : bs.length = B.length := by rw [← hw.data, List.length_map]
    have ht : Takes d.chip E k B.length := flushAll_counted B d k hp hk hl h (by
      rw [hw.log, List.length_append, events_length, hlen])
    have hsame := (flushAll_wrote B d k hp hk hl h ht).log
    rw [hw.log] at hsame
    rw [← events_inj (List.append_cancel_left hsame)]
    exact ⟨ht, fun b hb => (hg b hb).2⟩
  · rintro ⟨ht, hg⟩
    refine ⟨_, fun b hb => ⟨?_, hg b hb⟩, flushAll_wrote B d k hp hk hl h ht⟩
    exact (Chip.le_of_unskipped (List.mem_of_mem_take hb)).2

/-! ## the nodes -/

theorem Sane.addDir {v : Jenv} {s s' : Jst} {name : List UInt8} {parent ino : UInt32} (h : Sane v s)
    (hs : addDir v name parent s = some (ino, s')) : Sane v s' := by
  rw [addDir_eq] at hs
  obtain ⟨⟨inode, s1⟩, h1, hs⟩ := Option.bind_eq_some_iff.mp hs
  obtain ⟨s2, h2, hs⟩ := Option.bind_eq_some_iff.mp hs
  obtain ⟨s3, h3, hs⟩ := Option.bind_eq_some_iff.mp hs
  obtain ⟨s4, h4, hs⟩ := Option.bind_eq_some_iff.mp hs
  obtain ⟨s5, h5, hs⟩ := Option.bind_eq_some_iff.mp hs
  have hs2 : Sane v s2 := by
    split at h2
    · exact (h.addDirent h1).pad h2
    · exact Option.some.inj h2 ▸ h.addDirent h1
  exact (Prod.mk.inj (Option.some.inj hs)).2 ▸ ((hs2.prep h3).addData h4).pad h5

theorem Sane.tryAddFile {c : Job E} {s s' : Jst} {parent : UInt32} (h : Sane c.env s)
    (hs : tryAddFile c parent s = some s') : Sane c.env s' := by
  unfold Mtd.tryAddFile at hs
  cases hst : c.stat with
  | none =>
    rw [hst] at hs
    exact Option.some.inj hs ▸ h
  | some st =>
    rw [hst] at hs
    obtain ⟨⟨ino, s1⟩, h1, hs⟩ := Option.bind_eq_some_iff.mp hs
    have hs1 := h.addDirent h1
    cases hc : c.content with
    | none =>
      rw [hc] at hs
      exact Option.some.inj hs ▸ hs1
    | some content =>
      rw [hc] at hs
      exact Sane.addNodes _ _ _ _ _ hs1 hs

/-- whole blocks, the last one with the EOF marker -/
theorem appendNodes_blocks {c : Job E} (hE : 0 < E) {s s' : Jst} (hbuf : s.buf.length = E)
    (h : appendNodes c s = some s') :
    (∀ blk ∈ s'.out, blk.length = E) ∧ ∃ bs, s'.out = bs ++ [padTo E jffs2Eof] := by
  have hs0 : Sane c.env s.ready := ⟨hbuf, Nat.zero_le _, fun blk hb => absurd hb (by simp [Jst.ready])⟩
  unfold appendNodes at h
  have hrest : ∀ s1, Sane c.env s1 → ((Mtd.tryAddFile c (word s1.targetIno) s1).bind fun s =>
      (Mtd.pad c.env E s).bind fun s => (Mtd.addData c.env jffs2Eof s).bind fun s =>
        Mtd.pad c.env E s) = some s' →
      (∀ blk ∈ s'.out, blk.length = E) ∧ ∃ bs, s'.out = bs ++ [padTo E jffs2Eof] := by
    intro s1 hs1 h
    obtain ⟨s2, h2, h⟩ := Option.bind_eq_some_iff.mp h
    obtain ⟨s3, h3, h⟩ := Option.bind_eq_some_iff.mp h
    obtain ⟨s4, h4, h5⟩ := Option.bind_eq_some_iff.mp h
    exact (hs1.tryAddFile h2).eof hE h3 h4 h5
  simp only at h
  split at h
  · obtain ⟨s1, h1, h⟩ := Option.bind_eq_some_iff.mp h
    obtain ⟨⟨ino, s2⟩, h2, rfl⟩ := Option.map_eq_some_iff.mp h1
    exact hrest _ ((hs0.addDir h2).numbers _ _ _) h
  · exact hrest _ hs0 h

/-! ## the end of the file system -/

theorem scanFs_free {v : Jenv} {dir : List UInt8} : ∀ (bs : List (List UInt8)) (k : Nat) (s : Jst)
    {m : Int} {s' : Jst}, scanFs v dir bs (k * v.E : Nat) s = .ok (.free, m, s') →
    let n := (bs.takeWhile fun b => load16 v.big b 0 = some jffs2MagicBitmask).length
    m = ((k + n + 1) * v.E : Nat) ∧ (k + n + 1) * v.E ≤ 2147483647 ∧ s'.buf ∈ bs
  | [], k, s, m, s', h => by
    obtain ⟨h1, -⟩ := Prod.mk.inj (Except.ok.inj h)
    exact absurd h1 (by simp)
  | b :: bs, k, s, m, s', h => by
    obtain ⟨m1, magic, ha, hm, hcase⟩ := scanFs_turn h
    obtain ⟨rfl, hk1⟩ := advance_ok ha
    rcases hcase with ⟨hne, rfl, rfl⟩ | ⟨rfl, s1, -, h⟩
    · have hn : (decide (some magic = some jffs2MagicBitmask)) = false :=
        decide_eq_false fun e => hne (Option.some.inj e)
      rw [List.takeWhile_cons, hm, hn]
      exact ⟨rfl, hk1, List.mem_cons_self⟩
    · obtain ⟨h1, h2, h3⟩ := scanFs_free bs (k + 1) s1 h
      rw [List.takeWhile_cons, hm, decide_eq_true rfl]
      simp only [if_true, List.length_cons]
      rw [Nat.add_right_comm k 1] at h1 h2
      exact ⟨h1, h2, List.mem_cons_of_mem b h3⟩

theorem blocks_length (hE : 0 < E) : ∀ (n : Nat) (m : List UInt8), m.length = n * E →
    ∀ b ∈ blocks E m, b.length = E
  | 0, m, h, b, hb => by
    rw [Nat.zero_mul] at h
    rw [List.length_eq_zero_iff.mp h] at hb
    exact absurd hb (by simp [blocks, blocksAux])
  | n + 1, m, h, b, hb => by
    rw [Nat.add_mul, Nat.one_mul] at h
    have hm : m ≠ [] := fun e => by
      rw [e, List.length_nil] at h
      omega
    rw [blocks_cons E hE hm] at hb
    rcases List.mem_cons.mp hb with rfl | hb
    · rw [List.length_take]
      omega
    · exact blocks_length hE n (m.drop E) (by rw [List.length_drop]; omega) b hb

/-- what a run that gets to its end did -/
theorem writeNodes_ret {c : Job E} {d d1 : Dev E} (h : writeNodes c d = .ok (0, d1)) :
    fsEnd c d * E ≤ 2147483647 ∧ (∀ blk ∈ handedOut c d, blk.length = E) ∧
      (∃ bs, handedOut c d = bs ++ [padTo E jffs2Eof]) ∧
      ∃ m, flushAll (handedOut c d) { d with pos := fsEnd c d * E } (fsEnd c d * E : Nat)
        = .ok (d1, m) := by
  have hE := d.erasesize
  unfold writeNodes at h
  obtain ⟨⟨e, m, s⟩, hs, h⟩ := bind_ok h
  cases e with
  | short => exact absurd (Prod.mk.inj (Except.ok.inj h)).1 (by decide)
  | swapped => exact absurd (Prod.mk.inj (Except.ok.inj h)).1 (by decide)
  | free =>
    simp only at h
    obtain ⟨d2, hd, h2⟩ := bind_ok h
    obtain ⟨-, rfl⟩ := Prod.mk.inj (Except.ok.inj h2)
    have h0 : (0 : Int) = (0 * c.env.E : Nat) := by rw [Nat.zero_mul]; rfl
    have hfree := hs
    rw [h0] at hfree
    obtain ⟨hm, hle, hbuf⟩ := scanFs_free _ 0 _ hfree
    have hk : m - E = (fsEnd c d * E : Nat) := by
      rw [hm, Nat.zero_add, Nat.add_mul, Nat.one_mul]
      show ((fsEnd c d * E + E : Nat) : Int) - E = _
      omega
    have hkE : fsEnd c d * E ≤ 2147483647 := by
      refine Nat.le_trans (Nat.mul_le_mul_right E ?_) hle
      rw [Nat.zero_add]
      exact Nat.le_succ _
    unfold appendAt at hd
    rw [hk, Int.toNat_natCast] at hd
    cases ha : appendNodes c s with
    | none =>
      rw [ha] at hd
      exact absurd hd (by simp)
    | some s1 =>
      have hout : handedOut c d = s1.out := by
        unfold handedOut
        rw [hs]
        simp only [ha, Option.map_some, Option.getD_some]
      obtain ⟨hlen, heof⟩ := appendNodes_blocks hE (blocks_length hE _ _ d.size _ hbuf) ha
      rw [ha] at hd
      rw [hout]
      refine ⟨hkE, hlen, heof, ?_⟩
      cases hf : flushAll s1.out { d with pos := fsEnd c d * E } (fsEnd c d * E : Nat) with
      | error x =>
        simp only [hf] at hd
        exact absurd hd (by simp [Except.map])
      | ok r =>
        simp only [hf] at hd
        exact ⟨r.2, congrArg (fun x => Except.ok (x, r.2)) (Except.ok.inj hd)⟩

/-- **A reported success is one** exactly when the file can be opened and the device behind the file
system takes all blocks. -/
theorem success_iff {c : Job E} {d d' : Dev E} (h : mtdWriteJffs2 c d = .ok (0, d')) :
    (∃ bs, handedOut c d = bs ++ [padTo E jffs2Eof]) ∧
    ∃ d1, writeNodes c d = .ok (0, d1) ∧ d' = c.fixup d1 ∧ (OnFlash c d d1 ↔ CanLand c d) := by
  unfold mtdWriteJffs2 at h
  obtain ⟨⟨err, d1⟩, hw, h⟩ := bind_ok h
  obtain ⟨rfl, rfl⟩ := Prod.mk.inj (Except.ok.inj h)
  obtain ⟨hk, hl, heof, m, hf⟩ := writeNodes_ret hw
  have hiff := landed_iff rfl hk hl hf
  refine ⟨heof, d1, hw, if_pos rfl, ?_⟩
  constructor
  · rintro ⟨ho, bs, hg, hwr⟩
    obtain ⟨⟨hroom, hworks⟩, hbad⟩ := hiff.mp ⟨bs, hg, hwr.chip, hwr.data, hwr.rest, hwr.log⟩
    exact ⟨ho, hroom, fun b hb => ⟨hbad b hb, hworks b hb⟩⟩
  · rintro ⟨ho, hroom, hsound⟩
    obtain ⟨bs, hg, hwr⟩ := hiff.mpr ⟨⟨hroom, fun b hb => (hsound b hb).2⟩, fun b hb => (hsound b hb).1⟩
    exact ⟨ho, bs, hg, hwr.chip, hwr.data, hwr.rest, hwr.log⟩

/-- without the file only the marker is handed out -/
theorem missing_nodes {c : Job E} (h4 : 4 < E) (hst : c.stat = none) {s : Jst}
    (hbuf : s.buf.length = E) (ht : s.targetIno ≠ 0) :
    ∃ s', appendNodes c s = some s' ∧ s'.out = [padTo E jffs2Eof] := by
  obtain ⟨buf, h1, h2, h3⟩ := store_take s.buf jffs2Eof 0 (by rw [hbuf]; exact Nat.le_of_lt h4)
  obtain ⟨buf', h5, h6, h7⟩ := store_take buf (List.replicate (E - 4) 0xff) 4
    (by rw [List.length_replicate, h2, hbuf]; omega)
  have hpad0 : Mtd.pad c.env E s.ready = some s.ready := by
    unfold Mtd.pad
    exact if_pos ⟨Nat.zero_mod E, Nat.lt_trans (Nat.zero_lt_succ 3) h4⟩
  have hadd : Mtd.addData c.env jffs2Eof s.ready = some { s.ready with buf := buf, ofs := 4 } := by
    rw [addData_put (show s.ready.ofs + jffs2Eof.length ≤ c.env.E from Nat.le_of_lt h4)]
    unfold put
    rw [show s.ready.buf = s.buf from rfl, show s.ready.ofs = 0 from rfl, h1]
    rfl
  have hpad1 : Mtd.pad c.env E { s.ready with buf := buf, ofs := 4 }
      = some { s.ready with buf := buf', ofs := 0, out := [buf'] } := by
    have hmod : 4 % E = 4 := Nat.mod_eq_of_lt h4
    have hEE : 4 + (E - 4) = E := by omega
    unfold Mtd.pad
    simp only [hmod]
    rw [if_neg (by omega), if_pos (show 4 < c.env.E from h4), h5]
    simp only [Option.bind_eq_bind, Option.bind_some, hEE]
    rw [show E % c.env.E = 0 from Nat.mod_self E, if_pos rfl]
    rfl
  refine ⟨{ s.ready with buf := buf', ofs := 0, out := [buf'] }, ?_, ?_⟩
  · unfold appendNodes tryAddFile
    simp only [show s.ready.targetIno = s.targetIno from rfl, if_neg ht, hst, hpad0, hadd,
      Option.bind_eq_bind, Option.bind_some]
    exact hpad1
  · have hb : buf' = padTo E jffs2Eof := by
      rw [List.length_replicate, List.take_of_length_le (by omega)] at h7
      rw [Nat.zero_add, List.take_zero, List.nil_append] at h3
      rw [h7, show (4 : Nat) = jffs2Eof.length from rfl, h3]
      rfl
    rw [hb]

/-- an erased block ends the file system -/
theorem scanFs_erased {v : Jenv} {dir b : List UInt8} {bs : List (List UInt8)} {m0 m : Int} {s : Jst}
    (ha : advance v.E m0 = .ok m) (hm : load16 v.big b 0 = some 0xffff) :
    scanFs v dir (b :: bs) m0 s = .ok (.free, m, { s with buf := b }) := by
  unfold scanFs
  rw [ha, hm]
  rfl

theorem writeNodes_free {c : Job E} {d d1 : Dev E} {m : Int} {s : Jst}
    (hs : scanFs c.env c.dir (blocks E d.mem) 0 (statics c.dir) = .ok (.free, m, s))
    (ha : appendAt c d (m - E) s = .ok d1) : writeNodes c d = .ok (0, d1) := by
  unfold writeNodes
  rw [hs]
  simp only [bind, Except.bind]
  rw [ha]

/-- two erased blocks -/
def blankDev : Dev 4096 where
  chip := ⟨2, false, fun _ => false, fun _ => false, fun _ => false⟩
  erasesize := by decide
  total := by decide
  mem := List.replicate 8192 0xff
  size := List.length_replicate
  pos := 0
  log := []

/-- a file that is not there, for the root -/
def missingJob : Job 4096 := ⟨false, [], [0x61], none, none, id⟩

theorem missing_ret : ∃ d', mtdWriteJffs2 missingJob blankDev = .ok (0, d') := by
  have hblk : blocks 4096 blankDev.mem
      = blankDev.mem.take 4096 :: blocks 4096 (blankDev.mem.drop 4096) :=
    blocks_cons 4096 (by decide) (List.ne_nil_of_length_pos (by rw [blankDev.size]; decide))
  have hlen : (blankDev.mem.take 4096).length = 4096 := by
    rw [List.length_take, blankDev.size]
    decide
  have hff : (blankDev.mem.take 4096).all (· == 0xff) = true :=
    List.all_eq_true.mpr fun x hx => by
      rw [List.eq_of_mem_replicate (List.mem_of_mem_take hx)]
      rfl
  have hm : load16 false (blankDev.mem.take 4096) 0 = some 0xffff :=
    free_magic hff (by rw [hlen]; decide)
  have hadv : advance 4096 0 = .ok 4096 := rfl
  have hscan : scanFs missingJob.env missingJob.dir (blocks 4096 blankDev.mem) 0 (statics [])
      = .ok (.free, 4096, { statics [] with buf := blankDev.mem.take 4096 }) := by
    rw [hblk]
    exact scanFs_erased hadv hm
  have hhealthy : Healthy blankDev.chip 4096 :=
    ⟨fun _ => rfl, fun _ => rfl, fun _ => rfl, by decide⟩
  obtain ⟨s', h1, h2⟩ := missing_nodes (c := missingJob)
    (s := { statics [] with buf := blankDev.mem.take 4096 }) (by decide) rfl hlen (by decide)
  obtain ⟨d1, h3, -, -⟩ := flushAll_run [padTo 4096 jffs2Eof] blankDev 0 hhealthy (by decide) rfl
    fun blk hb => by
      rw [List.mem_singleton.mp hb]
      exact padTo_length (by decide)
  rw [← h2] at h3
  have happend : appendAt missingJob blankDev (4096 - (4096 : Nat))
      { statics [] with buf := blankDev.mem.take 4096 } = .ok d1 := by
    unfold appendAt
    rw [h1, show ((4096 : Int) - (4096 : Nat)) = 0 by decide]
    exact congrArg (Except.map Prod.fst) h3
  have hwrite : writeNodes missingJob blankDev = .ok (0, d1) := writeNodes_free hscan happend
  refine ⟨d1, ?_⟩
  unfold mtdWriteJffs2
  rw [hwrite]
  rfl

theorem success_missing : ∃ d', mtdWriteJffs2 missingJob blankDev = .ok (0, d') ∧
    ¬ OnFlash missingJob blankDev d' := by
  obtain ⟨d', h⟩ := missing_ret
  exact ⟨d', h, fun hon => absurd hon.opened.1 (by decide)⟩

theorem nandBlock_pos : 0 < 256 := by decide
theorem nandDev_total : 5 * 256 < 4294967296 := by decide
theorem nandDev_size : (List.replicate 1280 (0xff : UInt8)).length = 5 * 256 := List.length_replicate

/-- five erased blocks of NAND, the second of them bad -/
def nandDev : Dev 256 where
  chip := ⟨5, true, fun b => b == 1, fun _ => false, fun _ => false⟩
  erasesize := nandBlock_pos
  total := nandDev_total
  mem := List.replicate 1280 0xff
  size := nandDev_size
  pos := 0
  log := []

/-- a file of three bytes, for a directory that is not there yet -/
def landJob : Job 256 := ⟨false, [0x65, 0x74, 0x63], [0x2f, 0x61], some ⟨0o100644, 0, 0, 0, 0⟩, some [1, 2, 3], id⟩

/-- the directory, the file and the marker land, around the bad block -/
theorem success_iff_landed : ∃ d', mtdWriteJffs2 landJob nandDev = .ok (0, d') ∧ OnFlash landJob nandDev d' := by
  have hret : (mtdWriteJffs2 landJob nandDev).toOption.map Prod.fst = some 0 := by decide +kernel
  obtain ⟨⟨err, d'⟩, hsome, rfl⟩ := Option.map_eq_some_iff.mp hret
  have h : mtdWriteJffs2 landJob nandDev = .ok (0, d') := by
    cases hw : mtdWriteJffs2 landJob nandDev with
    | error e =>
      rw [hw] at hsome
      cases hsome
    | ok r =>
      rw [hw] at hsome
      exact congrArg Except.ok (Option.some.inj hsome)
  obtain ⟨-, d1, -, hd1, hiff⟩ := success_iff h
  obtain rfl : d' = d1 := hd1
  refine ⟨d', h, hiff.mpr ⟨⟨rfl, rfl⟩, ?_, ?_⟩⟩
  · decide +kernel
  · decide +kernel

end Mtd
