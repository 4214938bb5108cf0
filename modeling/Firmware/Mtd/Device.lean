import Firmware.Lib.Crc

/-!
# mtd: flash devices

A device is a row of erase blocks of `E` bytes with a file position.  Erasing sets a block to
`0xff`, programming can only clear bits.  Bad blocks, and blocks on which `MEMERASE` or `write`
fail, are given; what happened is kept in a log.

* `blockIsBad`    `mtd_block_is_bad`: `none` is the failing ioctl, after which the program exits;
* `eraseBlock`    `mtd_erase_block`: `none` is its `-1`;
* `write`         `write(2)` at the file position, cut at the end of the device;
* `Chip.reach`    the blocks the code can address: bad blocks are asked for with an `int` offset;
* `write_block`   an erased block takes the data, the others keep theirs.
-/

set_option linter.unusedVariables false

namespace Mtd
open Img CInt

/-- the properties of a device that do not change -/
structure Chip where
  nblocks : Nat
  nand : Bool
  bad : Nat → Bool
  eraseFails : Nat → Bool
  writeFails : Nat → Bool

/-- a block is reported bad; other flash types are never asked -/
def Chip.isBad (c : Chip) (b : Nat) : Bool := c.nand && c.bad b

inductive Event where
  | erase (b : Nat)
  | write (b : Nat)
deriving DecidableEq

/-- a device with erase blocks of `E` bytes; its size is a 32-bit field of `mtd_info_user` -/
structure Dev (E : Nat) where
  chip : Chip
  erasesize : 0 < E
  total : chip.nblocks * E < 4294967296
  mem : List UInt8
  size : mem.length = chip.nblocks * E
  pos : Nat
  log : List Event

variable {E : Nat}

/-- the content of an erase block -/
def block (E : Nat) (m : List UInt8) (b : Nat) : List UInt8 := slice m (b * E) E

def Dev.block (d : Dev E) (b : Nat) : List UInt8 := Mtd.block E d.mem b

/-- bits can only be cleared -/
def program (old new : List UInt8) : List UInt8 := List.zipWith (· &&& ·) old new

/-- `MEMGETBADBLOCK` on NAND, `offset` being an `int`; the ioctl fails outside the device -/
def blockIsBad (d : Dev E) (offset : Int) : Option Bool :=
  if d.chip.nand then
    let o := wrap offset
    if 0 ≤ o ∧ o < d.mem.length then some (d.chip.bad (o.toNat / E)) else none
  else some false

/-- `mtdEraseInfo.start = offset;` -/
def eraseStart (offset : Int) : Nat := (offset % 4294967296).toNat

theorem eraseBlock_size (d : Dev E) {start : Nat}
    (h : start + E ≤ d.mem.length ∧ d.chip.eraseFails (start / E) = false) :
    (poke d.mem start (List.replicate E 0xff)).length = d.chip.nblocks * E := by
  rw [poke_length _ _ _ (by rw [List.length_replicate]; exact h.1), d.size]

/-- `MEMERASE` of one block -/
def eraseBlock (d : Dev E) (offset : Int) : Option (Dev E) :=
  if h : eraseStart offset + E ≤ d.mem.length ∧
      d.chip.eraseFails (eraseStart offset / E) = false then
    some { d with
      mem := poke d.mem (eraseStart offset) (List.replicate E 0xff)
      size := eraseBlock_size d h
      log := d.log ++ [.erase (eraseStart offset / E)] }
  else none

/-- what `write` programs: the data that still fit -/
def Dev.fitted (d : Dev E) (data : List UInt8) : List UInt8 := data.take (d.mem.length - d.pos)

theorem program_length {old new : List UInt8} (h : old.length = new.length) :
    (program old new).length = new.length := by
  unfold program
  rw [List.length_zipWith]
  omega

theorem write_size (d : Dev E) (data : List UInt8) (h : d.pos < d.mem.length) :
    (poke d.mem d.pos (program (slice d.mem d.pos (d.fitted data).length) (d.fitted data))).length
      = d.chip.nblocks * E := by
  have hl : d.pos + (d.fitted data).length ≤ d.mem.length := by
    unfold Dev.fitted
    rw [List.length_take]
    omega
  rw [poke_length _ _ _ (by rw [program_length (slice_length _ _ _ hl)]; exact hl), d.size]

/-- `write(fd, data, length)`: the result and the device -/
def write (d : Dev E) (data : List UInt8) : Int × Dev E :=
  if h : d.pos < d.mem.length ∧ d.chip.writeFails (d.pos / E) = false then
    ((d.fitted data).length, { d with
      mem := poke d.mem d.pos (program (slice d.mem d.pos (d.fitted data).length) (d.fitted data))
      size := write_size d data h.1
      pos := d.pos + (d.fitted data).length
      log := d.log ++ [.write (d.pos / E)] })
  else (-1, d)

/-- `lseek(fd, n, SEEK_CUR)` -/
def seekCur (d : Dev E) (n : Nat) : Dev E := { d with pos := d.pos + n }

/-! ## blocks -/

theorem block_poke_self {m d : List UInt8} {b : Nat} (hd : d.length = E)
    (h : (b + 1) * E ≤ m.length) : block E (poke m (b * E) d) b = d := by
  have h' : b * E + E ≤ m.length := by rw [Nat.add_mul, Nat.one_mul] at h; exact h
  have hs := slice_poke_self m (b * E) d (by rw [hd]; exact h')
  rw [hd] at hs
  exact hs

theorem block_poke_other {m d : List UInt8} {b b' : Nat} (hd : d.length = E) (hb : b' ≠ b)
    (h : (b + 1) * E ≤ m.length) : block E (poke m (b * E) d) b' = block E m b' := by
  have h' : b * E + E ≤ m.length := by rw [Nat.add_mul, Nat.one_mul] at h; exact h
  unfold block
  rcases Nat.lt_or_gt_of_ne hb with hlt | hgt
  · have : (b' + 1) * E ≤ b * E := Nat.mul_le_mul_right E hlt
    rw [Nat.add_mul, Nat.one_mul] at this
    exact slice_poke_before m _ _ _ d this (by omega)
  · have : (b + 1) * E ≤ b' * E := Nat.mul_le_mul_right E hgt
    rw [Nat.add_mul, Nat.one_mul] at this
    exact slice_poke_after m _ _ _ d (by rw [hd]; exact this) (by rw [hd]; exact h')

theorem block_le (d : Dev E) {b : Nat} (h : b < d.chip.nblocks) : (b + 1) * E ≤ d.mem.length := by
  rw [d.size]
  exact Nat.mul_le_mul_right E h

theorem program_erased (l : List UInt8) : program (List.replicate l.length 0xff) l = l := by
  induction l with
  | nil => rfl
  | cons x l ih =>
    show (0xff &&& x) :: program (List.replicate l.length 0xff) l = x :: l
    rw [ih]
    congr 1
    rw [show (0xff : UInt8) = -1 by decide]
    simp

/-- a block filled up with `0xff` -/
def padTo (E : Nat) (l : List UInt8) : List UInt8 := l ++ List.replicate (E - l.length) 0xff

theorem padTo_length {l : List UInt8} (h : l.length ≤ E) : (padTo E l).length = E := by
  unfold padTo
  rw [List.length_append, List.length_replicate]
  omega

theorem padTo_of_length {l : List UInt8} (h : l.length = E) : padTo E l = l := by
  unfold padTo
  rw [h, Nat.sub_self]
  exact List.append_nil l

/-! ## addresses -/

theorem mul_div_block (d : Dev E) (b : Nat) : b * E / E = b := Nat.mul_div_cancel b d.erasesize

theorem eraseStart_block (d : Dev E) {b : Nat} (hb : b ≤ d.chip.nblocks) :
    eraseStart (b * E : Nat) = b * E := by
  have h := Nat.mul_le_mul_right E hb
  have ht := d.total
  unfold eraseStart
  omega

/-- the number of blocks that can be asked for: on NAND the offset has to fit an `int` -/
def Chip.reach (c : Chip) (E : Nat) : Nat :=
  if c.nand then min c.nblocks (2147483647 / E + 1) else c.nblocks

theorem Chip.reach_le (c : Chip) (E : Nat) : c.reach E ≤ c.nblocks := by
  unfold Chip.reach
  split <;> omega

theorem Chip.reach_nor {c : Chip} (h : c.nand = false) (E : Nat) : c.reach E = c.nblocks := by
  unfold Chip.reach
  rw [h]
  rfl

theorem Chip.lt_reach {c : Chip} (hE : 0 < E) (hn : c.nand = true) {b : Nat} :
    b < c.reach E ↔ b < c.nblocks ∧ b * E ≤ 2147483647 := by
  have h : b ≤ 2147483647 / E ↔ b * E ≤ 2147483647 := Nat.le_div_iff_mul_le hE
  unfold Chip.reach
  rw [if_pos hn]
  omega

theorem blockIsBad_block (d : Dev E) {b : Nat} (hb : b < d.chip.reach E) :
    blockIsBad d (b * E : Nat) = some (d.chip.isBad b) := by
  unfold blockIsBad Chip.isBad
  cases hn : d.chip.nand with
  | false => rfl
  | true =>
    obtain ⟨h1, h2⟩ := (Chip.lt_reach d.erasesize hn).mp hb
    have h3 : b * E < d.mem.length := by
      rw [d.size]
      exact Nat.mul_lt_mul_of_pos_right h1 d.erasesize
    have hw : wrap (b * E : Nat) = (b * E : Nat) := wrap_of_inRange (by unfold inRange; omega)
    rw [if_pos rfl, hw]
    simp only
    rw [if_pos ⟨by omega, by omega⟩, Int.toNat_natCast, mul_div_block d, Bool.true_and]

/-- behind the last block the question fails -/
theorem blockIsBad_end (d : Dev E) (hn : d.chip.nand = true) :
    blockIsBad d (d.chip.reach E * E : Nat) = none := by
  have h1 : ¬ (d.chip.reach E < d.chip.nblocks ∧ d.chip.reach E * E ≤ 2147483647) := by
    rw [← Chip.lt_reach d.erasesize hn]
    exact Nat.lt_irrefl _
  have h2 := Nat.mul_le_mul_right E (d.chip.reach_le E)
  have h3 := d.total
  have h4 : d.chip.reach E < d.chip.nblocks ∨ d.chip.reach E * E = d.mem.length := by
    rcases Nat.lt_or_ge (d.chip.reach E) d.chip.nblocks with h | h
    · exact Or.inl h
    · rw [d.size, Nat.le_antisymm (d.chip.reach_le E) h]
      exact Or.inr rfl
  unfold blockIsBad wrap
  rw [if_pos hn]
  simp only
  rw [if_neg]
  rintro ⟨h5, h6⟩
  omega

theorem blockIsBad_nor (d : Dev E) (hn : d.chip.nand = false) (offset : Int) :
    blockIsBad d offset = some false := by
  unfold blockIsBad
  rw [hn]
  rfl

/-! ## erasing and writing one block -/

theorem eraseBlock_some (d : Dev E) {b : Nat} (hb : b < d.chip.nblocks)
    (hf : d.chip.eraseFails b = false) :
    ∃ d', eraseBlock d (b * E : Nat) = some d' ∧ d'.chip = d.chip ∧ d'.pos = d.pos ∧
      d'.log = d.log ++ [.erase b] ∧ d'.block b = List.replicate E 0xff ∧
      ∀ b', b' ≠ b → d'.block b' = d.block b' := by
  have hle := block_le d hb
  have hs := eraseStart_block d (Nat.le_of_lt hb)
  have hc : eraseStart (b * E : Nat) + E ≤ d.mem.length ∧
      d.chip.eraseFails (eraseStart (b * E : Nat) / E) = false := by
    rw [hs, mul_div_block d]
    rw [Nat.add_mul, Nat.one_mul] at hle
    exact ⟨hle, hf⟩
  unfold eraseBlock
  rw [dif_pos hc]
  refine ⟨_, rfl, rfl, rfl, ?_, ?_, fun b' hb' => ?_⟩
  · show d.log ++ [.erase (eraseStart (b * E : Nat) / E)] = _
    rw [hs, mul_div_block d]
  · show block E (poke d.mem (eraseStart (b * E : Nat)) _) b = _
    rw [hs]
    exact block_poke_self List.length_replicate hle
  · show block E (poke d.mem (eraseStart (b * E : Nat)) _) b' = _
    rw [hs]
    exact block_poke_other List.length_replicate hb' hle

theorem eraseBlock_none (d : Dev E) {b : Nat} (hb : b ≤ d.chip.nblocks)
    (h : b = d.chip.nblocks ∨ d.chip.eraseFails b = true) :
    eraseBlock d (b * E : Nat) = none := by
  unfold eraseBlock
  rw [dif_neg]
  rintro ⟨h1, h2⟩
  rw [eraseStart_block d hb] at h1 h2
  rw [mul_div_block d] at h2
  have hE := d.erasesize
  rcases h with h | h
  · rw [d.size, h] at h1
    omega
  · rw [h] at h2
    exact absurd h2 (by simp)

/-- `write` of a whole block programs it over what it holds -/
theorem write_over (d : Dev E) {b : Nat} (hb : b < d.chip.nblocks)
    (hf : d.chip.writeFails b = false) (hp : d.pos = b * E) {data : List UInt8}
    (hd : data.length = E) :
    ∃ d', write d data = ((E : Int), d') ∧ d'.chip = d.chip ∧ d'.pos = (b + 1) * E ∧
      d'.log = d.log ++ [.write b] ∧ d'.block b = program (d.block b) data ∧
      ∀ b', b' ≠ b → d'.block b' = d.block b' := by
  have hE := d.erasesize
  have hle := block_le d hb
  have hle' := hle
  rw [Nat.add_mul, Nat.one_mul] at hle
  have hc : d.pos < d.mem.length ∧ d.chip.writeFails (d.pos / E) = false := by
    rw [hp, mul_div_block d]
    exact ⟨by omega, hf⟩
  have hfit : d.fitted data = data := by
    unfold Dev.fitted
    rw [List.take_of_length_le]
    omega
  have hmem : poke d.mem d.pos (program (slice d.mem d.pos (d.fitted data).length)
      (d.fitted data)) = poke d.mem (b * E) (program (d.block b) data) := by
    rw [hfit, hd, hp]
    rfl
  have hbl : (d.block b).length = data.length := by
    rw [hd]
    exact slice_length _ _ _ hle
  have hprog : (program (d.block b) data).length = E := (program_length hbl).trans hd
  unfold write
  rw [dif_pos hc]
  refine ⟨_, Prod.ext (show ((d.fitted data).length : Int) = E by rw [hfit, hd]) rfl, rfl,
    ?_, ?_, ?_, fun b' hb' => ?_⟩
  · show d.pos + (d.fitted data).length = _
    rw [hfit, hd, hp, Nat.add_mul, Nat.one_mul]
  · show d.log ++ [.write (d.pos / E)] = _
    rw [hp, mul_div_block d]
  · show block E (poke d.mem d.pos _) b = _
    rw [hmem]
    exact block_poke_self hprog hle'
  · show block E (poke d.mem d.pos _) b' = _
    rw [hmem]
    exact block_poke_other hprog hb' hle'

theorem write_block (d : Dev E) {b : Nat} (hb : b < d.chip.nblocks)
    (hf : d.chip.writeFails b = false) (hp : d.pos = b * E) {data : List UInt8}
    (hd : data.length = E) (he : d.block b = List.replicate E 0xff) :
    ∃ d', write d data = ((E : Int), d') ∧ d'.chip = d.chip ∧ d'.pos = (b + 1) * E ∧
      d'.log = d.log ++ [.write b] ∧ d'.block b = data ∧
      ∀ b', b' ≠ b → d'.block b' = d.block b' := by
  obtain ⟨d', h1, h2, h3, h4, h5, h6⟩ := write_over d hb hf hp hd
  refine ⟨d', h1, h2, h3, h4, ?_, h6⟩
  rw [h5, he, ← hd]
  exact program_erased data

/-- the blocks `bs` of `d` were erased and written with `B`, one after the other, and nothing else
was touched -/
structure Wrote (d d' : Dev E) (bs : List Nat) (B : List (List UInt8)) : Prop where
  chip : d'.chip = d.chip
  data : bs.map d'.block = B
  rest : ∀ b, b ∉ bs → d'.block b = d.block b
  log : d'.log = d.log ++ bs.flatMap fun b => [.erase b, .write b]

theorem Wrote.refl (d : Dev E) : Wrote d d [] [] :=
  ⟨rfl, rfl, fun _ _ => rfl, by simp⟩

theorem Wrote.trans {d d' d'' : Dev E} {bs bs' : List Nat} {B B' : List (List UInt8)}
    (h : Wrote d d' bs B) (h' : Wrote d' d'' bs' B') (hn : ∀ b ∈ bs, b ∉ bs') :
    Wrote d d'' (bs ++ bs') (B ++ B') := by
  constructor
  · rw [h'.chip, h.chip]
  · rw [List.map_append, h'.data, ← h.data]
    congr 1
    exact List.map_congr_left fun b hb => h'.rest b (hn b hb)
  · intro b hb
    rw [List.mem_append, not_or] at hb
    rw [h'.rest b hb.2, h.rest b hb.1]
  · rw [h'.log, h.log, List.flatMap_append, List.append_assoc]

/-- erasing and writing the block at the file position -/
theorem wrote_block (d : Dev E) {b : Nat} (hb : b < d.chip.nblocks)
    (he : d.chip.eraseFails b = false) (hw : d.chip.writeFails b = false) (hp : d.pos = b * E)
    {data : List UInt8} (hd : data.length = E) :
    ∃ d1 d2, eraseBlock d (b * E : Nat) = some d1 ∧ write d1 data = ((E : Int), d2) ∧
      d2.pos = (b + 1) * E ∧ Wrote d d2 [b] [data] := by
  obtain ⟨d1, h1, c1, p1, l1, e1, o1⟩ := eraseBlock_some d hb he
  obtain ⟨d2, h2, c2, p2, l2, e2, o2⟩ := write_block d1 (c1 ▸ hb) (c1 ▸ hw) (p1.trans hp) hd e1
  refine ⟨d1, d2, h1, h2, p2, c2.trans c1, ?_, fun b' hb' => ?_, ?_⟩
  · rw [List.map_cons, List.map_nil, e2]
  · have hne : b' ≠ b := fun e => hb' (e ▸ List.mem_singleton_self b)
    rw [o2 b' hne, o1 b' hne]
  · rw [l2, l1, List.append_assoc]
    rfl

end Mtd
