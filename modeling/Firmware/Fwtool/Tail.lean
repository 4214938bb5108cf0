import Firmware.Fwtool.Image

/-!
# fwtool: the two buffers as one tail of the file

The extractor keeps the last bytes of the file in two blocks.  `Rep d l` says that the buffers `d`
hold the bytes `l`, and the operations become operations on `l`:

* `extractTail_whole`   the last `n` bytes move to the destination;
* `extractTail_short`   fewer than `n` are left: they move to the end of the destination and the
                        call reports it;
* `tailCrc32_rep`       the CRC over `l`; without a byte left it reads through NULL;
* `readBlocks_rep`      after reading, the buffers hold the last bytes of the file and the CRC is
                        that of the bytes in front of them, however the bytes are counted
                        (`readLoop_rep`: as the code counts them).
-/

set_option linter.unusedVariables false

namespace Fwtool
open Img Word CInt Blocks

theorem bufLen_eq : bufLen = 32768 := rfl

/-- the buffers hold the bytes `l` -/
inductive Rep : DataBuf → List UInt8 → Prop where
  | one (c : Buf) (n : Nat) (fl : Int) : n ≤ bufLen → Rep ⟨some c, none, n, fl⟩ (c.1.take n)
  | two (c p : Buf) (n : Nat) (fl : Int) : n ≤ bufLen →
      Rep ⟨some c, some p, n, fl⟩ (p.1 ++ c.1.take n)
  | empty (fl : Int) : Rep ⟨none, none, bufLen, fl⟩ []

theorem Buf.take_length (c : Buf) {n : Nat} (h : n ≤ bufLen) : (c.1.take n).length = n := by
  rw [List.length_take, c.2]
  omega

/-- an empty current block has been given up -/
def Settled (d : DataBuf) (l : List UInt8) : Prop := d.cur.isNone = true ↔ l = []

theorem take_buf_ne_nil (c : Buf) {n : Nat} (h : n ≤ bufLen) (h0 : n ≠ 0) : c.1.take n ≠ [] := by
  intro e
  have := c.take_length h
  rw [e] at this
  exact h0 this.symm

/-- bytes removed from the current block are removed from the tail -/
theorem removeTail_rep {d : DataBuf} {l : List UInt8} (hr : Rep d l) {k : Nat}
    (hk : (k : Int) ≤ d.curLen) (hl : k ≤ l.length) :
    Rep (removeTail d k) (l.take (l.length - k)) ∧ Settled (removeTail d k) (l.take (l.length - k)) ∧
      (removeTail d k).fileLen = d.fileLen - k := by
  have hB := bufLen_eq
  cases hr with
  | one c n fl hn =>
    have hk' : k ≤ n := by simpa using hk
    have e : (n : Int) - k = ((n - k : Nat) : Int) := by omega
    have ht : (c.1.take n).take ((c.1.take n).length - k) = c.1.take (n - k) := by
      rw [c.take_length hn, List.take_take, Nat.min_eq_left (by omega)]
    rw [ht]
    unfold removeTail
    by_cases h0 : n - k = 0
    · rw [if_neg (by simp; omega), h0]
      exact ⟨.empty _, by simp [Settled], rfl⟩
    · rw [if_pos (by simp; omega)]
      refine ⟨?_, ?_, rfl⟩
      · show Rep ⟨some c, none, (n : Int) - k, _⟩ _
        rw [e]
        exact .one c (n - k) _ (by omega)
      · simp [Settled, take_buf_ne_nil c (n := n - k) (by omega) h0]
  | two c p n fl hn =>
    have hk' : k ≤ n := by simpa using hk
    have e : (n : Int) - k = ((n - k : Nat) : Int) := by omega
    have hlen : (p.1 ++ c.1.take n).length = bufLen + n := by
      rw [List.length_append, p.2, c.take_length hn]
    have ht : (p.1 ++ c.1.take n).take ((p.1 ++ c.1.take n).length - k)
        = p.1 ++ c.1.take (n - k) := by
      rw [hlen, List.take_append, p.2, List.take_of_length_le (by rw [p.2]; omega),
        show bufLen + n - k - bufLen = n - k by omega, List.take_take, Nat.min_eq_left (by omega)]
    rw [ht]
    have hp : p.1 ≠ [] := by
      intro e'
      have := p.2
      rw [e', hB] at this
      exact absurd this (by simp)
    unfold removeTail
    by_cases h0 : n - k = 0
    · rw [if_neg (by simp; omega), h0, List.take_zero, List.append_nil]
      refine ⟨?_, by simp [Settled, hp], rfl⟩
      have := Rep.one p bufLen (fl - k) (Nat.le_refl _)
      rwa [List.take_of_length_le (by rw [p.2])] at this
    · rw [if_pos (by simp; omega)]
      refine ⟨?_, by simp [Settled, hp], rfl⟩
      show Rep ⟨some c, some p, (n : Int) - k, _⟩ _
      rw [e]
      exact .two c p (n - k) _ (by omega)
  | empty fl =>
    obtain rfl : k = 0 := by simpa using hl
    unfold removeTail
    rw [if_pos (by rw [hB]; simp)]
    refine ⟨?_, by simp [Settled], rfl⟩
    show Rep ⟨none, none, (bufLen : Int) - 0, fl - 0⟩ _
    rw [Int.sub_zero, Int.sub_zero]
    exact .empty fl

/-- copying from the end of the current block -/
theorem memcpy_rep {d : DataBuf} {l : List UInt8} (hr : Rep d l) {k : Nat}
    (hk : (k : Int) ≤ d.curLen) (hl : k ≤ l.length) (dest : List UInt8) (off : Nat)
    (hd : off + k ≤ dest.length) :
    memcpy dest off d.cur (d.curLen - k) k = some (poke dest off (l.drop (l.length - k))) := by
  have hB := bufLen_eq
  by_cases h0 : k = 0
  · subst h0
    rw [Nat.sub_zero, List.drop_length, poke_nil]
    rfl
  · -- both forms end in the same bytes of `cur`
    have key : ∀ (c : Buf) (n : Nat), n ≤ bufLen → k ≤ n →
        memcpy dest off (some c) ((n : Int) - k) k
          = some (poke dest off ((c.1.take n).drop (n - k))) := by
      intro c n hn hkn
      have hs : slice c.1 (n - k) k = (c.1.take n).drop (n - k) := by
        unfold slice
        rw [List.drop_take]
        congr 1
        omega
      have hlen : ((c.1.take n).drop (n - k)).length = k := by
        rw [List.length_drop, c.take_length hn]
        omega
      unfold memcpy
      rw [if_neg (by omega), if_neg (by omega), show ((n : Int) - k).toNat = n - k by omega]
      show (load c.1 (n - k) k).bind (fun x => store dest off x) = _
      rw [load_eq_some.mpr ⟨by rw [c.2]; omega, rfl⟩, Option.bind_some, hs]
      exact store_eq_some.mpr ⟨by rw [hlen]; exact hd, rfl⟩
    cases hr with
    | one c n fl hn =>
      rw [c.take_length hn]
      exact key c n hn (by simpa using hk)
    | two c p n fl hn =>
      have hkn : k ≤ n := by simpa using hk
      rw [List.length_append, p.2, c.take_length hn, List.drop_append, p.2,
        List.drop_eq_nil_of_le (by rw [p.2]; omega), List.nil_append,
        show bufLen + n - k - bufLen = n - k by omega]
      exact key c n hn hkn
    | empty fl =>
      exact absurd (Nat.le_zero.mp hl) h0

/-! ## taking bytes -/

/-- with a current block, the tail is that block, or a whole block and that block -/
theorem Rep.lengths {d : DataBuf} {l : List UInt8} (hr : Rep d l) (hc : d.cur.isNone = false) :
    ∃ m : Nat, d.curLen = m ∧ m ≤ bufLen ∧
      ((d.prev.isNone = true ∧ l.length = m) ∨ (d.prev.isNone = false ∧ l.length = bufLen + m)) := by
  cases hr with
  | one c n fl hn => exact ⟨n, rfl, hn, .inl ⟨rfl, c.take_length hn⟩⟩
  | two c p n fl hn =>
    exact ⟨n, rfl, hn, .inr ⟨rfl, by rw [List.length_append, p.2, c.take_length hn]⟩⟩
  | empty fl => exact absurd hc (by simp)

theorem Rep.curLen_nonneg {d : DataBuf} {l : List UInt8} (hr : Rep d l) : 0 ≤ d.curLen := by
  cases hr with
  | one c n fl hn => exact Int.natCast_nonneg _
  | two c p n fl hn => exact Int.natCast_nonneg _
  | empty fl => exact Int.natCast_nonneg _

/-- the two steps of a call that finds enough bytes: `k` from the current block, the rest from the
block that is current afterwards -/
theorem extractTail_steps {d : DataBuf} {l : List UInt8} (hr : Rep d l)
    (hc : d.cur.isNone = false) {n k : Nat} (hn : n ≤ l.length) (hkn : k ≤ n)
    (hmin : (if d.curLen ≥ (n : Int) then (n : Int) else d.curLen) = k) (hk : (k : Int) ≤ d.curLen)
    (hrest : n - k = 0 ∨
      ((removeTail d k).cur.isNone = false ∧ ((n - k : Nat) : Int) ≤ (removeTail d k).curLen))
    {dest : List UInt8} (hd : n ≤ dest.length) :
    ∃ d', extractTail d dest n = some (0, d', l.drop (l.length - n) ++ dest.drop n) ∧
      Rep d' (l.take (l.length - n)) ∧ Settled d' (l.take (l.length - n)) ∧
      d'.fileLen = d.fileLen - n := by
  obtain ⟨r1, -, f1⟩ := removeTail_rep hr (k := k) hk (by omega)
  have hl1 : (l.take (l.length - k)).length = l.length - k := by rw [List.length_take]; omega
  have hr2 : ((n - k : Nat) : Int) ≤ (removeTail d k).curLen := by
    rcases hrest with h | h
    · rw [h]
      exact r1.curLen_nonneg
    · exact h.2
  obtain ⟨r2, s2, f2⟩ := removeTail_rep r1 (k := n - k) hr2 (by omega)
  have m1 := memcpy_rep hr (k := k) hk (by omega) dest (n - k) (by omega)
  have hb : (l.drop (l.length - k)).length = k := by rw [List.length_drop]; omega
  have m2 := memcpy_rep r1 (k := n - k) hr2 (by omega)
    (poke dest (n - k) (l.drop (l.length - k))) 0
    (by rw [poke_length _ _ _ (by omega)]; omega)
  have ha : ((l.take (l.length - k)).drop ((l.take (l.length - k)).length - (n - k))).length
      = n - k := by rw [List.length_drop]; omega
  have htake : (l.take (l.length - k)).take ((l.take (l.length - k)).length - (n - k))
      = l.take (l.length - n) := by
    rw [hl1, List.take_take, Nat.min_eq_left (by omega), show l.length - k - (n - k)
      = l.length - n by omega]
  have hdata : (l.take (l.length - k)).drop ((l.take (l.length - k)).length - (n - k))
      ++ l.drop (l.length - k) = l.drop (l.length - n) := by
    rw [hl1, show l.length - k - (n - k) = l.length - n by omega,
      ← List.drop_append_of_le_length (by omega), List.take_append_drop]
  have hpp := poke_poke_front dest _ (l.drop (l.length - k)) (by rw [ha, hb]; omega)
  rw [ha, hb, hdata, show n - k + k = n by omega] at hpp
  rw [htake] at r2 s2
  refine ⟨removeTail (removeTail d k) ((n - k : Nat) : Int), ?_, r2, s2, by rw [f2, f1]; omega⟩
  unfold extractTail
  rw [if_neg (by rw [hc]; simp)]
  simp only [hmin]
  rw [show (n : Int) - k = ((n - k : Nat) : Int) by omega, m1]
  simp only [Option.bind_eq_bind, Option.bind_some]
  rw [if_neg, ← Int.natCast_zero, m2, hpp]
  · rfl
  · rintro ⟨h1, h2⟩
    rcases hrest with h | h
    · exact h1 (by rw [h]; rfl)
    · rw [h.1] at h2
      exact absurd h2 (by simp)

/-- a block used up makes room for the one before it -/
theorem removeTail_all {d : DataBuf} {m : Nat} (hm : d.curLen = m) :
    removeTail d m = ⟨d.prev, none, bufLen, d.fileLen - m⟩ := by
  unfold removeTail
  rw [if_neg (by rw [hm]; simp)]

/-- **The last `n` bytes**, from one block or across both. -/
theorem extractTail_whole {d : DataBuf} {l : List UInt8} (hr : Rep d l)
    (hc : d.cur.isNone = false) {n : Nat} (hn : n ≤ l.length) (hb : n ≤ bufLen)
    (dest : List UInt8) (hd : n ≤ dest.length) :
    ∃ d', extractTail d dest n = some (0, d', l.drop (l.length - n) ++ dest.drop n) ∧
      Rep d' (l.take (l.length - n)) ∧ Settled d' (l.take (l.length - n)) ∧
      d'.fileLen = d.fileLen - n := by
  obtain ⟨m, hm, hmb, hcase⟩ := hr.lengths hc
  by_cases hnm : n ≤ m
  · exact extractTail_steps hr hc hn (Nat.le_refl n) (by rw [hm, if_pos (by omega)])
      (by rw [hm]; omega) (.inl (by omega)) hd
  · rcases hcase with ⟨-, hl⟩ | ⟨hp, hl⟩
    · omega
    · refine extractTail_steps hr hc hn (k := m) (by omega) (by rw [hm, if_neg (by omega)])
        (by rw [hm]) (.inr ?_) hd
      rw [removeTail_all hm]
      exact ⟨hp, by show ((n - m : Nat) : Int) ≤ (bufLen : Int); omega⟩

/-- **Fewer than `n` bytes left**: they end up at the end of the destination. -/
theorem extractTail_short {d : DataBuf} {l : List UInt8} (hr : Rep d l)
    (hc : d.cur.isNone = false) {n : Nat} (hn : l.length < n) (hb : n ≤ bufLen)
    (dest : List UInt8) (hd : n ≤ dest.length) :
    ∃ d', extractTail d dest n
        = some (1, d', dest.take (n - l.length) ++ (l ++ dest.drop n)) ∧
      d'.cur.isNone = true ∧ Rep d' [] ∧ d'.fileLen = d.fileLen - l.length := by
  obtain ⟨m, hm, hmb, hcase⟩ := hr.lengths hc
  rcases hcase with ⟨hp, hl⟩ | ⟨-, hl⟩
  · have m1 := memcpy_rep hr (k := m) (by rw [hm]) (by omega) dest (n - m) (by omega)
    have hprev : d.prev = none := by simpa using hp
    refine ⟨⟨none, none, bufLen, d.fileLen - m⟩, ?_, rfl, .empty _, by rw [hl]⟩
    unfold extractTail
    rw [if_neg (by rw [hc]; simp)]
    simp only [hm]
    rw [if_neg (by omega)]
    rw [hm] at m1
    rw [show (n : Int) - m = ((n - m : Nat) : Int) by omega, m1]
    simp only [Option.bind_eq_bind, Option.bind_some]
    rw [removeTail_all hm, hprev, if_pos ⟨by omega, rfl⟩, hl, Nat.sub_self, List.drop_zero]
    unfold poke
    rw [hl, show n - m + m = n by omega]
  · omega

theorem extractTail_none {d : DataBuf} (hc : d.cur.isNone = true) (dest : List UInt8) (n : Int) :
    extractTail d dest n = some (1, d, dest) := by
  unfold extractTail
  rw [if_pos hc]

/-- a negative length makes `memcpy` run off the buffers -/
theorem extractTail_neg {d : DataBuf} {l : List UInt8} (hr : Rep d l) (hc : d.cur.isNone = false)
    {n : Int} (hn : n < 0) (dest : List UInt8) : extractTail d dest n = none := by
  have h0 := hr.curLen_nonneg
  unfold extractTail memcpy
  rw [if_neg (by rw [hc]; simp)]
  simp only [if_pos (show d.curLen ≥ n by omega)]
  rw [if_neg (by omega), if_pos (by omega)]
  rfl

/-! ## the CRC -/

theorem crc32Block_append (val : UInt32) (a b : List UInt8) :
    crc32Block val (a ++ b) = crc32Block (crc32Block val a) b := Crc.block_append _ _ _ _

theorem tailCrc32_rep {d : DataBuf} {l : List UInt8} (hr : Rep d l) (hc : d.cur.isNone = false)
    (crc : UInt32) : tailCrc32 d crc = some (crc32Block crc l) := by
  cases hr with
  | one c n fl hn => rfl
  | two c p n fl hn =>
    rw [crc32Block_append]
    rfl
  | empty fl => exact absurd hc (by simp)

theorem tailCrc32_none {d : DataBuf} (hc : d.cur.isNone = true) (crc : UInt32) :
    tailCrc32 d crc = none := by
  have : d.cur = none := by simpa using hc
  unfold tailCrc32
  rw [this]
  rfl

/-! ## reading -/

/-- the bytes of a block that may be missing -/
def optBytes : Option Buf → List UInt8
  | none => []
  | some b => b.1

/-- how many bytes of a file of `n` bytes stay in the buffers -/
def tailLen (n : Nat) : Nat := if n < bufLen then n else bufLen + n % bufLen

theorem Buf.read_take (b : Buf) (data : List UInt8) (h : data.length ≤ bufLen) :
    (b.read data h).1.take data.length = data := by
  show (data ++ b.1.drop data.length).take data.length = data
  exact List.take_left

/-- the reading loop with `add` in place of the addition that counts the bytes -/
def readBlocks (add : Int → Nat → Int) (heap : Heap) :
    Nat → List UInt8 → UInt32 → DataBuf → Option (UInt32 × DataBuf)
  | 0, _, _, _ => none
  | fuel + 1, f, crc, d =>
    let (crc, cur) := match d.prev with
      | some c => (crc32Block crc c.1, c)
      | none => (crc, heap.blk fuel)
    let d : DataBuf := ⟨some (cur.read (f.take bufLen) (List.length_take_le _ _)), d.cur,
      (f.take bufLen).length, add d.fileLen (f.take bufLen).length⟩
    if (f.take bufLen).length = bufLen then readBlocks add heap fuel (f.drop bufLen) crc d
    else some (crc, d)

/-- the loop from any point on: `g` is what went into the CRC -/
theorem readBlocks_from {add : Int → Nat → Int}
    (hadd : ∀ n a b, add (add n a) b = add n (a + b)) (heap : Heap) :
    ∀ (fuel : Nat) (f g : List UInt8) (d : DataBuf), f.length < fuel →
    ∃ d' g' l, readBlocks add heap fuel f (crc32Block 0xffffffff g) d
        = some (crc32Block 0xffffffff g', d') ∧
      Rep d' l ∧ d'.cur.isNone = false ∧ d'.fileLen = add d.fileLen f.length ∧
      g' ++ l = g ++ optBytes d.prev ++ optBytes d.cur ++ f ∧
      l.length = if f.length < bufLen then (optBytes d.cur).length + f.length
        else bufLen + f.length % bufLen := by
  intro fuel
  induction fuel with
  | zero =>
    intro f g d h
    omega
  | succ fuel ih =>
    intro f g d hf
    have hB := bufLen_eq
    have htl : (f.take bufLen).length = min bufLen f.length := List.length_take
    -- one turn of the loop: the block before the last one goes into the CRC
    obtain ⟨c, hstep⟩ : ∃ c : Buf, readBlocks add heap (fuel + 1) f (crc32Block 0xffffffff g) d
        = if (f.take bufLen).length = bufLen then
            readBlocks add heap fuel (f.drop bufLen)
              (crc32Block 0xffffffff (g ++ optBytes d.prev))
              ⟨some (c.read (f.take bufLen) (List.length_take_le _ _)), d.cur,
                (f.take bufLen).length, add d.fileLen (f.take bufLen).length⟩
          else some (crc32Block 0xffffffff (g ++ optBytes d.prev),
            ⟨some (c.read (f.take bufLen) (List.length_take_le _ _)), d.cur,
              (f.take bufLen).length, add d.fileLen (f.take bufLen).length⟩) := by
      cases hp : d.prev with
      | none =>
        refine ⟨heap.blk fuel, ?_⟩
        rw [show optBytes none = [] from rfl, List.append_nil]
        conv_lhs => unfold readBlocks
        simp only [hp]
      | some p =>
        refine ⟨p, ?_⟩
        rw [show optBytes (some p) = p.1 from rfl, crc32Block_append]
        conv_lhs => unfold readBlocks
        simp only [hp]
    rw [hstep]
    have hread := c.read_take (f.take bufLen) (List.length_take_le _ _)
    by_cases hfull : (f.take bufLen).length = bufLen
    · rw [if_pos hfull]
      have hge : bufLen ≤ f.length := by omega
      have hdl : (f.drop bufLen).length = f.length - bufLen := List.length_drop
      obtain ⟨d', g', l, e, hr, hcur, hfl, hsplit, hlen⟩ := ih (f.drop bufLen)
        (g ++ optBytes d.prev) ⟨some (c.read (f.take bufLen) (List.length_take_le _ _)), d.cur,
          (f.take bufLen).length, add d.fileLen (f.take bufLen).length⟩ (by omega)
      refine ⟨d', g', l, e, hr, hcur, ?_, ?_, ?_⟩
      · rw [hfl, hadd]
        congr 1
        omega
      · rw [hsplit]
        show g ++ optBytes d.prev ++ optBytes d.cur
          ++ (c.read (f.take bufLen) (List.length_take_le _ _)).1 ++ f.drop bufLen = _
        rw [hfull, List.take_of_length_le (by rw [(c.read _ _).2])] at hread
        rw [hread, List.append_assoc _ (f.take bufLen), List.take_append_drop]
      · rw [hlen, if_neg (show ¬ f.length < bufLen by omega)]
        have hc' : (optBytes (some (c.read (f.take bufLen) (List.length_take_le _ _)))).length
            = bufLen := (c.read _ _).2
        rw [hc', hdl, Nat.mod_eq_sub_mod hge]
        by_cases h2 : f.length - bufLen < bufLen
        · rw [if_pos h2, Nat.mod_eq_of_lt h2]
        · rw [if_neg h2]
    · rw [if_neg hfull]
      have hlt : f.length < bufLen := by omega
      have hlen : (f.take bufLen).length = f.length := by omega
      refine ⟨_, _, optBytes d.cur ++ f, rfl, ?_, rfl, ?_, by simp, ?_⟩
      · have hrep : ∀ (c : Buf), c.1.take f.length = f →
            Rep ⟨some c, d.cur, f.length, add d.fileLen f.length⟩ (optBytes d.cur ++ f) := by
          intro c hcf
          cases hcur : d.cur with
          | none =>
            have := Rep.one c f.length (add d.fileLen f.length) (by omega)
            rwa [hcf] at this
          | some p =>
            have := Rep.two c p f.length (add d.fileLen f.length) (by omega)
            rwa [hcf] at this
        have ht : f.take bufLen = f := List.take_of_length_le (by omega)
        rw [hlen] at hread ⊢
        exact hrep _ (hread.trans ht)
      · show add d.fileLen (f.take bufLen).length = _
        rw [hlen]
      · rw [if_pos hlt, List.length_append]

/-- **After reading**: the file is what went into the CRC and what the buffers hold. -/
theorem readBlocks_rep {add : Int → Nat → Int}
    (hadd : ∀ n a b, add (add n a) b = add n (a + b)) (heap : Heap) (f : List UInt8) :
    ∃ d g l, readBlocks add heap (f.length + 1) f 0xffffffff ⟨none, none, 0, 0⟩
        = some (crc32Block 0xffffffff g, d) ∧
      Rep d l ∧ d.cur.isNone = false ∧ d.fileLen = add 0 f.length ∧ f = g ++ l ∧
      l.length = tailLen f.length := by
  obtain ⟨d, g, l, e, hr, hc, hfl, hs, hl⟩ := readBlocks_from hadd heap (f.length + 1) f []
    ⟨none, none, 0, 0⟩ (by omega)
  refine ⟨d, g, l, e, hr, hc, hfl, by simpa [optBytes] using hs.symm, ?_⟩
  rw [hl]
  unfold tailLen
  simp [optBytes]

/-- as long as an `int` can count the bytes, the loop of the code adds them -/
theorem readLoop_eq (heap : Heap) : ∀ (fuel : Nat) (f : List UInt8) (crc : UInt32) (d : DataBuf),
    0 ≤ d.fileLen → d.fileLen + f.length ≤ 2147483647 →
    readLoop heap fuel f crc d = readBlocks (fun n k => n + k) heap fuel f crc d := by
  intro fuel
  induction fuel with
  | zero =>
    intro f crc d _ _
    rfl
  | succ fuel ih =>
    intro f crc d h0 hmax
    have htl : (f.take bufLen).length = min bufLen f.length := List.length_take
    have hdl : (f.drop bufLen).length = f.length - bufLen := List.length_drop
    have hadd : intAdd d.fileLen (f.take bufLen).length
        = some (d.fileLen + (f.take bufLen).length) :=
      intAdd_eq_some.mpr ⟨⟨by omega, by omega⟩, rfl⟩
    unfold readLoop readBlocks
    simp only [hadd, Option.bind_eq_bind, Option.bind_some]
    split
    · refine ih _ _ _ ?_ ?_
      · show (0 : Int) ≤ d.fileLen + _
        omega
      · show d.fileLen + _ + _ ≤ _
        omega
    · rfl

/-- a file longer than an `int` can count -/
theorem readLoop_overflow (heap : Heap) : ∀ (fuel : Nat) (f : List UInt8) (crc : UInt32)
    (d : DataBuf), 0 ≤ d.fileLen → 2147483647 < d.fileLen + f.length →
    d.fileLen ≤ 2147483647 → readLoop heap fuel f crc d = none := by
  intro fuel
  induction fuel with
  | zero =>
    intro f crc d _ _ _
    rfl
  | succ fuel ih =>
    intro f crc d h0 hmax hle
    have hB := bufLen_eq
    have htl : (f.take bufLen).length = min bufLen f.length := List.length_take
    have hdl : (f.drop bufLen).length = f.length - bufLen := List.length_drop
    unfold readLoop
    by_cases hr : d.fileLen + (f.take bufLen).length ≤ 2147483647
    · have hadd : intAdd d.fileLen (f.take bufLen).length
          = some (d.fileLen + (f.take bufLen).length) :=
        intAdd_eq_some.mpr ⟨⟨by omega, hr⟩, rfl⟩
      simp only [hadd, Option.bind_eq_bind, Option.bind_some]
      rw [if_pos (by omega)]
      refine ih _ _ _ ?_ ?_ hr
      · show (0 : Int) ≤ d.fileLen + _
        omega
      · show _ < d.fileLen + _ + _
        omega
    · have hadd : intAdd d.fileLen (f.take bufLen).length = none := by
        unfold intAdd
        rw [if_neg fun h => hr h.2]
      simp only [hadd, Option.bind_eq_bind, Option.bind_none]

theorem readLoop_rep (heap : Heap) (f : List UInt8) (hmax : f.length ≤ 2147483647) :
    ∃ d g l, readLoop heap (f.length + 1) f 0xffffffff ⟨none, none, 0, 0⟩
        = some (crc32Block 0xffffffff g, d) ∧
      Rep d l ∧ d.cur.isNone = false ∧ d.fileLen = f.length ∧ f = g ++ l ∧
      l.length = tailLen f.length := by
  have h0 : (0 : Int) + f.length ≤ 2147483647 := by omega
  obtain ⟨d, g, l, e, hr, hc, hfl, hs, hl⟩ := @readBlocks_rep (fun n k => n + k)
    (by intro n a b; push_cast; omega) heap f
  rw [← readLoop_eq heap _ f 0xffffffff ⟨none, none, 0, 0⟩ (Int.le_refl 0) h0] at e
  exact ⟨d, g, l, e, hr, hc, by rw [hfl]; omega, hs, hl⟩

end Fwtool
