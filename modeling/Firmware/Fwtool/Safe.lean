import Firmware.Fwtool.Sound
import Firmware.Lib.Run

/-!
# fwtool: which accesses the extractor makes

`SafeFrom` lists what the extractor touches: both copies of `extract_tail`, the buffers that
`tail_crc32` reads, `cur_len`, and the lengths handed to `fwrite`, in every turn of the loop that a
file leads to (`turn`); the loop of the code takes these turns (`extractLoop_run`).

`extract_tail` copies twice, and the second copy may be of no bytes from a block that has just
been given up.  `strict` says whether such a copy from NULL counts; the results hold either way.

`safe_iff`: a file is bad exactly when, behind complete chunks, the extractor comes to one of the
trailers of `Trips`, or when `file_len` overflows on it (`Safe`).  `SafeWrapping` is about a
`file_len` that wraps around, for files of any length.
-/

set_option linter.unusedVariables false

namespace Fwtool
open Img Word CInt Blocks Machine

/-! ## the property -/

/-- a copy of `n` bytes from `src + soff` to offset `doff` of `cap` bytes -/
structure CopyIn (strict : Bool) (src : Option Buf) (soff n cap doff : Int) : Prop where
  len : 0 ≤ n ∧ n ≤ bufLen
  source : 0 ≤ soff ∧ soff + n ≤ bufLen
  dest : 0 ≤ doff ∧ doff + n ≤ cap
  notNull : n ≠ 0 ∨ strict = true → src.isNone = false

def InBuf (d : DataBuf) : Prop := 0 ≤ d.curLen ∧ d.curLen ≤ bufLen

/-- the copies of `extract_tail`, to a destination of `cap` bytes -/
def TailSafe (strict : Bool) (d : DataBuf) (cap len : Int) : Prop :=
  d.cur.isNone = true ∨
    let k := if d.curLen ≥ len then len else d.curLen
    let d' := removeTail d k
    CopyIn strict d.cur (d.curLen - k) k cap (len - k) ∧ InBuf d' ∧
      ((len - k ≠ 0 ∧ d'.cur.isNone = true) ∨
        CopyIn strict d'.cur (d'.curLen - (len - k)) (len - k) cap 0 ∧
          InBuf (removeTail d' (len - k)))

/-- the length handed to `fwrite`, if there is a call -/
def WriteSafe (kind : Kind) (type : UInt8) (dataLen : Int) (buf : List UInt8) : Prop :=
  match kind with
  | .signature => type = fwimageSignature → 0 ≤ dataLen
  | .metadata => type = fwimageInfo → validateMetadata buf = 0 → 0 ≤ dataLen - hdrLen

/-- the variables of the loop over the chunks -/
structure State where
  d : DataBuf
  trb : List UInt8
  buf : List UInt8

/-- one turn of the loop, in the order of its calls -/
def TurnSafe (strict : Bool) (kind : Kind) (crc : UInt32) (s : State) : Prop :=
  InBuf s.d ∧ TailSafe strict s.d trailerLen trailerLen ∧
    ∀ d trb, extractTail s.d s.trb trailerLen = some (0, d, trb) →
      (Trailer.ofBytes trb).magic = fwimageMagic →
      d.cur.isNone = false ∧
        (tailCrc32 d crc = some (Trailer.ofBytes trb).crc32 →
          toInt ((Trailer.ofBytes trb).size - UInt32.ofNat trailerLen) ≤ bufLen →
          TailSafe strict d bufLen (toInt ((Trailer.ofBytes trb).size - UInt32.ofNat trailerLen)) ∧
            ∀ r d' buf, extractTail d s.buf
                (toInt ((Trailer.ofBytes trb).size - UInt32.ofNat trailerLen))
                = some (r, d', buf) →
              WriteSafe kind (Trailer.ofBytes trb).type
                (toInt ((Trailer.ofBytes trb).size - UInt32.ofNat trailerLen)) buf)

instance (kind : Kind) (type : UInt8) (buf : List UInt8) : Decidable (skipped kind type buf) :=
  match kind with
  | .signature => inferInstanceAs (Decidable (_ ∧ _))
  | .metadata => inferInstanceAs (Decidable (_ ∨ _))

/-- one turn of the loop: the next state, or the way out -/
def turn (kind : Kind) (crc : UInt32) (s : State) : State ⊕ Option Result :=
  match extractTail s.d s.trb trailerLen with
  | none => .inr none
  | some (r, d, trb) =>
    if r ≠ 0 then .inr (some ⟨1, [], d.fileLen⟩)
    else
      let tr := Trailer.ofBytes trb
      let dataLen := toInt (tr.size - UInt32.ofNat trailerLen)
      if tr.magic ≠ fwimageMagic then .inr (some ⟨1, [], d.fileLen⟩)
      else
        match tailCrc32 d crc with
        | none => .inr none
        | some crc' =>
          if tr.crc32 ≠ crc' then .inr (some ⟨1, [], d.fileLen⟩)
          else if dataLen > bufLen then .inr (some ⟨1, [], d.fileLen⟩)
          else
            match extractTail d s.buf dataLen with
            | none => .inr none
            | some (_, d, buf) =>
              if skipped kind tr.type buf then .inl ⟨d, trb, buf⟩
              else .inr (useChunk kind none tr.type dataLen d.fileLen buf)

/-- `dbuf.file_len += dbuf.cur_len`, whatever an `int` makes of it -/
def wrapAdd (n : Int) (k : Nat) : Int := wrap (n + k)

/-- no access outside the buffers, in any turn behind what has been read -/
def SafeFrom (strict : Bool) (heap : Heap) (kind : Kind) (start : Option (UInt32 × DataBuf)) :
    Prop :=
  ∃ crc d, start = some (crc, d) ∧
    ∀ s, Leads (turn kind crc) ⟨d, heap.tr.1, heap.buf.1⟩ s → TurnSafe strict kind crc s

/-- **No access outside the buffers**, in any turn on the way through `f` -/
def Safe (strict : Bool) (heap : Heap) (kind : Kind) (f : List UInt8) : Prop :=
  SafeFrom strict heap kind (readLoop heap (f.length + 1) f 0xffffffff ⟨none, none, 0, 0⟩)

/-- … where `file_len` may wrap around -/
def SafeWrapping (strict : Bool) (heap : Heap) (kind : Kind) (f : List UInt8) : Prop :=
  SafeFrom strict heap kind
    (readBlocks wrapAdd heap (f.length + 1) f 0xffffffff ⟨none, none, 0, 0⟩)

/-! ## the condition -/

/-- the trailer `t` behind the bytes `l` leads astray: nothing stands in front of it, or it passes
the checks and announces a negative length, or exactly the bytes that are left, or a chunk of
metadata that is shorter than its header -/
def Trips (strict : Bool) (kind : Kind) (crc : UInt32) (l t buf : List UInt8) : Prop :=
  let tr := Trailer.ofBytes t
  let n := toInt (tr.size - UInt32.ofNat trailerLen)
  (strict = true ∧ l = []) ∨ tr.magic = fwimageMagic ∧ (l = [] ∨ tr.crc32 = crc32Block crc l ∧
    (n < 0 ∨ n ≤ bufLen ∧ ((strict = true ∧ n = l.length) ∨
      kind = .metadata ∧ tr.type = fwimageInfo ∧ n < hdrLen ∧
        (takePayload l buf n.toNat).2.take 4 = [0, 0, 0, 0])))

/-- the extractor comes to such a trailer, over complete chunks -/
def Astray (strict : Bool) (heap : Heap) (kind : Kind) (f : List UInt8) : Prop :=
  ∃ l t buf, t.length = trailerLen ∧
    Skip kind (crc32Block 0xffffffff (headOf f)) (tailOf f) heap.buf.1 (l ++ t) buf ∧
    Trips strict kind (crc32Block 0xffffffff (headOf f)) l t buf

/-! ## the loop of the code takes these turns -/

/-- what is not skipped ends the loop -/
theorem useChunk_not_skipped {kind : Kind} {type : UInt8} {buf : List UInt8}
    (h : ¬ skipped kind type buf) (again : Option Result) (n fl : Int) :
    useChunk kind again type n fl buf = useChunk kind none type n fl buf := by
  unfold useChunk validateMetadata
  cases kind with
  | signature =>
    by_cases hs : type = fwimageSignature
    · rw [if_pos hs, if_pos hs]
      rfl
    · have hi : type = fwimageInfo := not_not.mp fun hi => h ⟨hs, hi⟩
      rw [if_neg hs, if_neg hs, if_pos hi, if_pos hi]
      rfl
  | metadata =>
    have hi : type = fwimageInfo := not_not.mp fun hi => h (.inl hi)
    have hv : ¬ buf.take 4 ≠ [0, 0, 0, 0] := fun hv => h (.inr hv)
    have hs : type ≠ fwimageSignature := by
      rw [hi]
      decide
    rw [if_neg hs, if_neg hs, if_pos hi, if_pos hi]
    simp only [if_neg hv]
    rfl

/-- **The loop of the code**: a turn, and the rest from the next state. -/
theorem extractLoop_turn (kind : Kind) (crc : UInt32) (fuel : Nat) (s : State) :
    extractLoop kind crc (fuel + 1) s.d s.trb s.buf
      = match turn kind crc s with
        | .inl s' => extractLoop kind crc fuel s'.d s'.trb s'.buf
        | .inr r => r := by
  conv_lhs => unfold extractLoop
  unfold turn
  cases extractTail s.d s.trb trailerLen with
  | none => rfl
  | some p =>
    obtain ⟨r, d, trb⟩ := p
    simp only [Option.bind_eq_bind, Option.bind_some]
    by_cases hr : r ≠ 0
    · rw [if_pos hr, if_pos hr]
    rw [if_neg hr, if_neg hr]
    by_cases hm : (Trailer.ofBytes trb).magic ≠ fwimageMagic
    · rw [if_pos hm, if_pos hm]
    rw [if_neg hm, if_neg hm]
    cases tailCrc32 d crc with
    | none => rfl
    | some crc' =>
      simp only [Option.bind_some]
      by_cases hc : (Trailer.ofBytes trb).crc32 ≠ crc'
      · rw [if_pos hc, if_pos hc]
      rw [if_neg hc, if_neg hc]
      split
      · rfl
      · cases extractTail d s.buf
            (toInt ((Trailer.ofBytes trb).size - UInt32.ofNat trailerLen)) with
        | none => rfl
        | some p =>
          obtain ⟨r', d', buf⟩ := p
          simp only [Option.bind_some]
          by_cases hs : skipped kind (Trailer.ofBytes trb).type buf
          · rw [if_pos hs, useChunk_skipped hs]
          · rw [if_neg hs]
            exact useChunk_not_skipped hs _ _ _

/-- … until the first way out -/
theorem extractLoop_run (kind : Kind) (crc : UInt32) : ∀ (fuel : Nat) (s : State),
    extractLoop kind crc fuel s.d s.trb s.buf = (run (turn kind crc) fuel s).join := by
  intro fuel
  induction fuel with
  | zero =>
    intro s
    rfl
  | succ fuel ih =>
    intro s
    rw [extractLoop_turn]
    unfold run
    cases turn kind crc s with
    | inl s' => exact ih s'
    | inr r => rfl

/-! ## `extract_tail` -/

theorem inBuf_removeTail {d : DataBuf} {k : Int} (h0 : 0 ≤ d.curLen - k)
    (hB : d.curLen - k ≤ bufLen) : InBuf (removeTail d k) := by
  unfold removeTail
  by_cases h : d.curLen - k ≠ 0
  · rw [if_pos h]
    exact ⟨h0, hB⟩
  · rw [if_neg h]
    exact ⟨Int.natCast_nonneg _, Int.le_refl _⟩

theorem removeTail_curLen (d : DataBuf) (k : Int) : (removeTail d k).curLen ≠ 0 := by
  have hB := bufLen_eq
  unfold removeTail
  by_cases h : d.curLen - k ≠ 0
  · rw [if_pos h]
    exact h
  · rw [if_neg h]
    show (bufLen : Int) ≠ 0
    omega

/-- a call that succeeds leaves a block that is not used up -/
theorem extractTail_curLen {d d' : DataBuf} {dest dest' : List UInt8} {n : Int}
    (h : extractTail d dest n = some (0, d', dest')) : d'.curLen ≠ 0 := by
  unfold extractTail at h
  by_cases hc : d.cur.isNone
  · rw [if_pos hc] at h
    exact absurd (Prod.mk.inj (Option.some.inj h)).1 (by decide)
  rw [if_neg hc] at h
  obtain ⟨dest₁, -, h⟩ := Option.bind_eq_some_iff.mp h
  by_cases h2 : n - (if d.curLen ≥ n then n else d.curLen) ≠ 0
      ∧ (removeTail d (if d.curLen ≥ n then n else d.curLen)).cur.isNone = true
  · rw [if_pos h2] at h
    exact absurd (Prod.mk.inj (Option.some.inj h)).1 (by decide)
  rw [if_neg h2] at h
  obtain ⟨dest₂, -, h⟩ := Option.bind_eq_some_iff.mp h
  obtain ⟨-, h⟩ := Prod.mk.inj (Option.some.inj h)
  rw [← (Prod.mk.inj h).1]
  exact removeTail_curLen _ _

theorem tailSafe_none {strict : Bool} {d : DataBuf} (hc : d.cur.isNone = true) (cap len : Int) :
    TailSafe strict d cap len := .inl hc

/-- a negative length is handed to `memcpy` -/
theorem tailSafe_neg {strict : Bool} {d : DataBuf} {l : List UInt8} (hr : Rep d l)
    (hc : d.cur.isNone = false) {n : Int} (hn : n < 0) (cap : Int) :
    ¬ TailSafe strict d cap n := by
  have h0 := hr.curLen_nonneg
  rintro (h | ⟨h, -⟩)
  · rw [hc] at h
    exact absurd h (by simp)
  · rw [if_pos (by omega)] at h
    have := h.len.1
    omega

theorem tailSafe_short {strict : Bool} {d : DataBuf} {l : List UInt8} (hr : Rep d l)
    (hc : d.cur.isNone = false) {n : Nat} (hn : l.length < n) (hb : n ≤ bufLen) {cap : Int}
    (hcap : n ≤ cap) : TailSafe strict d cap n := by
  obtain ⟨m, hm, hmb, hcase⟩ := hr.lengths hc
  rcases hcase with ⟨hp, hl⟩ | ⟨-, hl⟩
  · refine .inr ?_
    simp only
    rw [hm, if_neg (by omega)]
    refine ⟨⟨by omega, by omega, by omega, fun _ => hc⟩,
      inBuf_removeTail (by omega) (by omega), .inl ⟨by omega, ?_⟩⟩
    rw [removeTail_all hm]
    exact hp
  · omega

/-- enough bytes: at most the second copy is from NULL, and then it is empty -/
theorem tailSafe_whole {strict : Bool} {d : DataBuf} {l : List UInt8} (hr : Rep d l)
    (hc : d.cur.isNone = false) {n : Nat} (hn : n ≤ l.length) (hb : n ≤ bufLen) {cap : Int}
    (hcap : n ≤ cap) (hz : d.curLen ≠ 0 ∨ n < bufLen) :
    TailSafe strict d cap n ↔ ¬ (strict = true ∧ n = l.length) := by
  have hB := bufLen_eq
  obtain ⟨m, hm, hmb, hcase⟩ := hr.lengths hc
  have hc' : ¬ d.cur.isNone = true := by
    rw [hc]
    simp
  unfold TailSafe
  rw [or_iff_right hc']
  simp only
  by_cases hnm : n ≤ m
  · -- one copy does it
    rw [hm, if_pos (by omega), Int.sub_self]
    have hin : InBuf (removeTail d n) := inBuf_removeTail (by omega) (by omega)
    have hcopy : CopyIn strict d.cur (m - n) n cap 0 :=
      ⟨by omega, by omega, by omega, fun _ => hc⟩
    have hrest : InBuf (removeTail (removeTail d n) 0) :=
      inBuf_removeTail (by have := hin.1; omega) (by have := hin.2; omega)
    have hcur : (removeTail d n).cur.isNone = true ↔ n = l.length := by
      unfold removeTail
      by_cases h0 : d.curLen - n ≠ 0
      · rw [if_pos h0]
        constructor
        · intro h
          exact absurd h hc'
        · intro h
          rcases hcase with ⟨-, hl⟩ | ⟨-, hl⟩ <;> omega
      · rw [if_neg h0]
        show d.prev.isNone = true ↔ _
        rcases hcase with ⟨hp, hl⟩ | ⟨hp, hl⟩
        · rw [hp]
          exact ⟨fun _ => by omega, fun _ => rfl⟩
        · rw [hp]
          exact ⟨fun h => absurd h (by simp), fun h => by omega⟩
    constructor
    · rintro ⟨-, -, ⟨h, -⟩ | ⟨h, -⟩⟩ ⟨hs, he⟩
      · exact h rfl
      · have := h.notNull (.inr hs)
        rw [hcur.mpr he] at this
        exact absurd this (by simp)
    · intro h
      refine ⟨hcopy, hin, .inr ⟨⟨by omega, ?_, by omega, ?_⟩, hrest⟩⟩
      · have := hin.1
        have := hin.2
        omega
      · rintro (h0 | hs)
        · exact absurd rfl h0
        · exact Bool.eq_false_iff.mpr fun hn => h ⟨hs, hcur.mp hn⟩
  · rcases hcase with ⟨-, hl⟩ | ⟨hp, hl⟩
    · omega
    · rw [hm, if_neg (by omega), removeTail_all hm]
      have hne : ¬ (strict = true ∧ n = l.length) := by
        rintro ⟨-, he⟩
        omega
      refine iff_of_true ⟨⟨by omega, by omega, by omega, fun _ => hc⟩,
        ⟨Int.natCast_nonneg _, Int.le_refl _⟩, .inr ⟨⟨by omega, ?_, by omega, fun _ => hp⟩, ?_⟩⟩ hne
      · show 0 ≤ (bufLen : Int) - _ ∧ (bufLen : Int) - _ + _ ≤ _
        omega
      · refine inBuf_removeTail ?_ ?_
        · show 0 ≤ (bufLen : Int) - _
          omega
        · show (bufLen : Int) - _ ≤ _
          omega

/-! ## one turn -/

/-- the variables hold the bytes `l` of the tail -/
structure Inv (s : State) (l : List UInt8) : Prop where
  rep : Rep s.d l
  gone : s.d.cur.isNone = true → l = []
  trb : s.trb.length = trailerLen
  buf : s.buf.length = bufLen

theorem Rep.inBuf {d : DataBuf} {l : List UInt8} (hr : Rep d l) : InBuf d := by
  cases hr with
  | one c n fl hn => exact ⟨Int.natCast_nonneg _, Int.ofNat_le.mpr hn⟩
  | two c p n fl hn => exact ⟨Int.natCast_nonneg _, Int.ofNat_le.mpr hn⟩
  | empty fl => exact ⟨Int.natCast_nonneg _, Int.le_refl _⟩

/-- too little is left for a trailer -/
theorem Inv.short {s : State} {l : List UInt8} (hi : Inv s l) (h : l.length < trailerLen)
    (strict : Bool) : TailSafe strict s.d trailerLen trailerLen ∧
      ∃ d trb, extractTail s.d s.trb trailerLen = some (1, d, trb) := by
  have hB := bufLen_eq
  have h16 : trailerLen = 16 := rfl
  obtain ⟨d', trb', e, -⟩ := extractTail_less hi.rep hi.gone h hi.trb
  refine ⟨?_, d', trb', e⟩
  cases hc : s.d.cur.isNone with
  | true => exact tailSafe_none hc _ _
  | false => exact tailSafe_short hi.rep hc h (by omega) (Int.le_refl _)

/-- the trailer `t` is taken off -/
theorem Inv.trailer {s : State} {l t : List UInt8} (hi : Inv s (l ++ t))
    (ht : t.length = trailerLen) (strict : Bool) :
    (TailSafe strict s.d trailerLen trailerLen ↔ ¬ (strict = true ∧ l = [])) ∧
      ∃ d, extractTail s.d s.trb trailerLen = some (0, d, t) ∧ Rep d l ∧ Settled d l ∧
        d.curLen ≠ 0 := by
  have hB := bufLen_eq
  have h16 : trailerLen = 16 := rfl
  have hlen : (l ++ t).length = l.length + trailerLen := by rw [List.length_append, ht]
  obtain ⟨hc, d, e, hr, hs, -⟩ := extractTail_trailer hi.rep hi.gone ht hi.trb
  refine ⟨?_, d, e, hr, hs, extractTail_curLen e⟩
  rw [tailSafe_whole hi.rep hc (by omega) (by omega) (Int.le_refl _) (.inr (by omega)), hlen,
    ← List.length_eq_zero_iff]
  refine not_congr (and_congr_right fun _ => ?_)
  omega

/-- the payload is taken off, all of it or what is left -/
theorem payload_safe {d : DataBuf} {l : List UInt8} (hr : Rep d l) (hc : d.cur.isNone = false)
    (hz : d.curLen ≠ 0) {n : Nat} (hn : n ≤ bufLen) (strict : Bool) :
    TailSafe strict d bufLen n ↔ ¬ (strict = true ∧ n = l.length) := by
  by_cases h : n ≤ l.length
  · exact tailSafe_whole hr hc h hn (Int.ofNat_le.mpr hn) (.inl hz)
  · refine iff_of_true (tailSafe_short hr hc (by omega) hn (Int.ofNat_le.mpr hn)) ?_
    rintro ⟨-, e⟩
    omega

/-- **One turn is safe** unless its trailer leads astray. -/
theorem turnSafe_trailer {s : State} {l t : List UInt8} (hi : Inv s (l ++ t))
    (ht : t.length = trailerLen) (strict : Bool) (kind : Kind) (crc : UInt32) :
    TurnSafe strict kind crc s ↔ ¬ Trips strict kind crc l t s.buf := by
  obtain ⟨hts, d, e, hr, hset, hz⟩ := hi.trailer ht strict
  unfold TurnSafe Trips
  simp only
  generalize hn : toInt ((Trailer.ofBytes t).size - UInt32.ofNat trailerLen) = n
  rw [hts, not_or]
  constructor
  · rintro ⟨-, h1, h2⟩
    refine ⟨h1, ?_⟩
    rintro ⟨hm, h3⟩
    obtain ⟨hc, h4⟩ := h2 d t e hm
    have hne : l ≠ [] := fun e' => by
      rw [hset.mpr e'] at hc
      exact absurd hc (by simp)
    rcases h3 with h3 | ⟨hcrc, h3⟩
    · exact hne h3
    · rw [hn] at h4
      have h5 := h4 ((tailCrc32_rep hr hc crc).trans (congrArg some hcrc.symm))
      rcases h3 with h3 | ⟨hb, h3⟩
      · exact tailSafe_neg hr hc h3 _ (h5 (by omega)).1
      · obtain ⟨h6, h7⟩ := h5 hb
        by_cases h0 : n < 0
        · exact tailSafe_neg hr hc h0 _ h6
        obtain ⟨k, rfl⟩ := Int.eq_ofNat_of_zero_le (by omega : 0 ≤ n)
        obtain ⟨r, d', ep, -⟩ := extractTail_payload hr hc (n := k) (by omega) s.buf
          (by rw [hi.buf]; omega)
        rcases h3 with ⟨hs, h3⟩ | ⟨hk, ht', h8, hv⟩
        · exact (payload_safe hr hc hz (by omega) strict).mp h6 ⟨hs, by omega⟩
        · subst hk
          have := h7 _ _ _ ep ht' (if_neg (not_not.mpr hv))
          omega
  · rintro ⟨h1, h2⟩
    refine ⟨hi.rep.inBuf, h1, ?_⟩
    intro d₁ trb e₁ hm
    obtain ⟨-, e₁⟩ := Prod.mk.inj (Option.some.inj (e.symm.trans e₁))
    obtain ⟨rfl, rfl⟩ := Prod.mk.inj e₁
    have hne : l ≠ [] := fun e' => h2 ⟨hm, .inl e'⟩
    have hc : d.cur.isNone = false := Bool.eq_false_iff.mpr fun hc => hne (hset.mp hc)
    refine ⟨hc, ?_⟩
    rw [tailCrc32_rep hr hc, hn]
    intro hcrc hb
    have h3 := fun h => h2 ⟨hm, .inr ⟨(Option.some.inj hcrc).symm, h⟩⟩
    have h0 : ¬ n < 0 := fun h0 => h3 (.inl h0)
    obtain ⟨k, rfl⟩ := Int.eq_ofNat_of_zero_le (by omega : 0 ≤ n)
    have h4 := fun h => h3 (.inr ⟨hb, h⟩)
    refine ⟨(payload_safe hr hc hz (by omega) strict).mpr fun ⟨hs, hl⟩ => h4 (.inl ⟨hs, by omega⟩),
      ?_⟩
    intro r d' buf ep
    obtain ⟨r', d'', ep', -⟩ := extractTail_payload hr hc (n := k) (by omega) s.buf
      (by rw [hi.buf]; omega)
    obtain ⟨-, ep⟩ := Prod.mk.inj (Option.some.inj (ep'.symm.trans ep))
    obtain ⟨-, rfl⟩ := Prod.mk.inj ep
    unfold WriteSafe
    cases kind with
    | signature => exact fun _ => Int.natCast_nonneg _
    | metadata =>
      intro hty hv
      by_contra h8
      refine h4 (.inr ⟨rfl, hty, by omega, ?_⟩)
      unfold validateMetadata at hv
      by_contra hv'
      rw [Int.toNat_natCast] at hv'
      rw [if_pos hv'] at hv
      exact absurd hv (by decide)

theorem turnSafe_short {s : State} {l : List UInt8} (hi : Inv s l) (h : l.length < trailerLen)
    (strict : Bool) (kind : Kind) (crc : UInt32) : TurnSafe strict kind crc s := by
  obtain ⟨hs, d, trb, e⟩ := hi.short h strict
  refine ⟨hi.rep.inBuf, hs, ?_⟩
  intro d' trb' e'
  exact absurd (Prod.mk.inj (Option.some.inj (e.symm.trans e'))).1 (by decide)

/-! ## the way through the file -/

/-- a valid trailer of a chunk that is skipped -/
theorem turn_valid {kind : Kind} {crc : UInt32} {s : State} {l t : List UInt8} {n : Nat}
    (hi : Inv s (l ++ t)) (hv : Valid crc l t n)
    (hs : skipped kind (Trailer.ofBytes t).type (takePayload l s.buf n).2) :
    ∃ s', turn kind crc s = .inl s' ∧ s'.buf = (takePayload l s.buf n).2 ∧
      Inv s' (takePayload l s.buf n).1 := by
  obtain ⟨-, d, e, hr, hset, -⟩ := hi.trailer hv.length true
  have hc : d.cur.isNone = false := Bool.eq_false_iff.mpr fun hc => hv.front (hset.mp hc)
  obtain ⟨r, d', ep, hr', hset', -⟩ := extractTail_payload hr hc hv.bound s.buf
    (by rw [hi.buf]; exact hv.bound)
  refine ⟨⟨d', t, (takePayload l s.buf n).2⟩, ?_, rfl,
    hr', hset'.mp, hv.length, takePayload_length hv.bound hi.buf⟩
  unfold turn
  rw [e]
  simp only [toInt_of_size hv.size hv.bound]
  rw [if_neg (by decide), if_neg (by rw [hv.magic]; simp), tailCrc32_rep hr hc]
  simp only
  rw [if_neg (by rw [hv.crc32]; simp), if_neg (by have := hv.bound; omega), ep]
  simp only
  rw [if_pos hs]

theorem turn_next {kind : Kind} {crc : UInt32} {s s' : State} {l t : List UInt8}
    (hi : Inv s (l ++ t)) (ht : t.length = trailerLen) (h : turn kind crc s = .inl s') :
    ∃ n, Valid crc l t n ∧ skipped kind (Trailer.ofBytes t).type (takePayload l s.buf n).2 ∧
      s'.buf = (takePayload l s.buf n).2 ∧ Inv s' (takePayload l s.buf n).1 := by
  obtain ⟨-, d, e, hr, hset, -⟩ := hi.trailer ht true
  obtain ⟨n, hv, hs⟩ : ∃ n, Valid crc l t n ∧
      skipped kind (Trailer.ofBytes t).type (takePayload l s.buf n).2 := by
    unfold turn at h
    rw [e] at h
    simp only at h
    rw [if_neg (by decide)] at h
    by_cases hm : (Trailer.ofBytes t).magic ≠ fwimageMagic
    · rw [if_pos hm] at h
      exact absurd h (by simp)
    rw [if_neg hm] at h
    cases hc : d.cur.isNone with
    | true =>
      rw [tailCrc32_none hc] at h
      exact absurd h (by simp)
    | false =>
      have hne : l ≠ [] := fun e' => by
        rw [hset.mpr e'] at hc
        exact absurd hc (by simp)
      rw [tailCrc32_rep hr hc] at h
      simp only at h
      by_cases hcrc : (Trailer.ofBytes t).crc32 ≠ crc32Block crc l
      · rw [if_pos hcrc] at h
        exact absurd h (by simp)
      rw [if_neg hcrc] at h
      by_cases hb : toInt ((Trailer.ofBytes t).size - UInt32.ofNat trailerLen) > bufLen
      · rw [if_pos hb] at h
        exact absurd h (by simp)
      rw [if_neg hb] at h
      by_cases h0 : toInt ((Trailer.ofBytes t).size - UInt32.ofNat trailerLen) < 0
      · rw [extractTail_neg hr hc h0] at h
        exact absurd h (by simp)
      have hv : Valid crc l t
          (toInt ((Trailer.ofBytes t).size - UInt32.ofNat trailerLen)).toNat :=
        ⟨ht, not_not.mp hm, hne, not_not.mp hcrc, size_of_toInt h0 hb, by omega⟩
      obtain ⟨r, d', ep, -⟩ := extractTail_payload hr hc hv.bound s.buf
        (by rw [hi.buf]; exact hv.bound)
      rw [Int.toNat_of_nonneg (by omega)] at ep
      rw [ep] at h
      simp only at h
      by_cases hs : skipped kind (Trailer.ofBytes t).type (takePayload l s.buf
          (toInt ((Trailer.ofBytes t).size - UInt32.ofNat trailerLen)).toNat).2
      · exact ⟨_, hv, hs⟩
      · rw [if_neg hs] at h
        exact absurd h (by simp)
  obtain ⟨s'', h', hb, hi'⟩ := turn_valid hi hv hs
  obtain rfl := Sum.inl.inj (h.symm.trans h')
  exact ⟨n, hv, hs, hb, hi'⟩

theorem turn_stops {kind : Kind} {crc : UInt32} {s s' : State} {l : List UInt8}
    (hi : Inv s l) (hl : l.length < trailerLen) : turn kind crc s ≠ .inl s' := by
  obtain ⟨-, d, trb, e⟩ := hi.short hl true
  unfold turn
  rw [e]
  simp

theorem Skip.nil {kind : Kind} {crc : UInt32} {buf l' buf' : List UInt8}
    (h : Skip kind crc [] buf l' buf') : l' = [] := by
  generalize hl : ([] : List UInt8) = l at h
  cases h with
  | refl => rfl
  | step hv _ _ =>
    have ht := hv.length
    rw [(List.append_eq_nil_iff.mp (List.append_eq_nil_iff.mp hl.symm).2).2] at ht
    exact absurd ht (by decide)

/-- the states on the way: over complete chunks, or at the end behind a chunk cut short -/
theorem Leads.skip {kind : Kind} {crc : UInt32} {s s' : State} (h : Leads (turn kind crc) s s') :
    ∀ l, Inv s l → ∃ l', Inv s' l' ∧ (l' = [] ∨ Skip kind crc l s.buf l' s'.buf) := by
  induction h using Relation.ReflTransGen.head_induction_on with
  | refl => exact fun l hi => ⟨l, hi, .inr (.refl _ _)⟩
  | @head a b hab _ ih =>
    intro l hi
    have hlong : ¬ l.length < trailerLen := fun hl => turn_stops hi hl hab
    obtain ⟨l1, t, rfl, ht⟩ := cut_trailer hlong
    obtain ⟨n, hv, hs, hb, hi'⟩ := turn_next hi ht hab
    obtain ⟨l', hl', hsk⟩ := ih _ hi'
    refine ⟨l', hl', ?_⟩
    by_cases hn : n ≤ l1.length
    · obtain ⟨l0, d, rfl, rfl, hp⟩ := takePayload_le a.buf hn
      rw [hb, hp] at hsk
      rw [hp] at hs
      refine hsk.imp_right fun hsk => ?_
      rw [List.append_assoc]
      exact .step hv hs hsk
    · have hnil : (takePayload l1 a.buf n).1 = [] := by
        unfold takePayload
        rw [if_neg hn]
      rw [hnil] at hsk
      exact .inl (hsk.elim id fun hsk => hsk.nil)

theorem Skip.leads {kind : Kind} {crc : UInt32} {l buf l' buf' : List UInt8}
    (h : Skip kind crc l buf l' buf') : ∀ s, Inv s l → s.buf = buf →
    ∃ s', Leads (turn kind crc) s s' ∧ Inv s' l' ∧ s'.buf = buf' := by
  induction h with
  | refl l buf => exact fun s hi hb => ⟨s, .refl s, hi, hb⟩
  | @step l d t buf l' buf' hv hs _ ih =>
    intro s hi hb
    have hp := takePayload_append l d s.buf
    rw [← hb] at hs ih
    rw [← List.append_assoc] at hi
    obtain ⟨s₁, ht, hb₁, hi₁⟩ := @turn_valid kind _ _ _ _ _ hi hv (by rw [hp]; exact hs)
    rw [hp] at hb₁ hi₁
    obtain ⟨s', hl, hi', hb'⟩ := ih s₁ hi₁ hb₁
    exact ⟨s', .head ht hl, hi', hb'⟩

/-! ## the extractor is safe unless it is led astray -/

theorem wrapAdd_wrapAdd (n : Int) (a b : Nat) : wrapAdd (wrapAdd n a) b = wrapAdd n (a + b) := by
  unfold wrapAdd wrap
  omega

/-- what is read: the state in front of the first turn -/
theorem start_inv (heap : Heap) {f g l : List UInt8} {d : DataBuf} (hr : Rep d l)
    (hc : d.cur.isNone = false) (hs : f = g ++ l) (hl : l.length = tailLen f.length) :
    crc32Block 0xffffffff g = crc32Block 0xffffffff (headOf f) ∧
      Inv ⟨d, heap.tr.1, heap.buf.1⟩ (tailOf f) := by
  obtain ⟨hg, ht⟩ := head_tail_of hs hl
  rw [hg, ht]
  exact ⟨rfl, hr, fun h => absurd (hc.symm.trans h) (by simp), heap.tr.2, heap.buf.2⟩

section
variable {strict : Bool} {heap : Heap} {kind : Kind} {f : List UInt8} {d : DataBuf}

theorem Astray.not_safeFrom (hi : Inv ⟨d, heap.tr.1, heap.buf.1⟩ (tailOf f))
    (h : Astray strict heap kind f) :
    ¬ SafeFrom strict heap kind (some (crc32Block 0xffffffff (headOf f), d)) := by
  obtain ⟨l, t, buf, ht, hsk, htr⟩ := h
  rintro ⟨crc, d', e, h⟩
  obtain ⟨rfl, rfl⟩ := Prod.mk.inj (Option.some.inj e)
  obtain ⟨s, hl, his, rfl⟩ := hsk.leads _ hi rfl
  exact (turnSafe_trailer his ht strict kind _).mp (h s hl) htr

/-- behind what has been read, only the trailers of `Trips` are a danger -/
theorem safeFrom_iff (hi : Inv ⟨d, heap.tr.1, heap.buf.1⟩ (tailOf f)) :
    SafeFrom strict heap kind (some (crc32Block 0xffffffff (headOf f), d))
      ↔ ¬ Astray strict heap kind f := by
  refine ⟨fun h ha => ha.not_safeFrom hi h, fun h => ?_⟩
  refine ⟨_, d, rfl, ?_⟩
  intro s hl
  obtain ⟨l, his, hsk⟩ := Leads.skip hl _ hi
  by_cases hshort : l.length < trailerLen
  · exact turnSafe_short his hshort strict kind _
  · obtain ⟨l1, t, rfl, ht⟩ := cut_trailer hshort
    refine (turnSafe_trailer his ht strict kind _).mpr fun htr => h ⟨l1, t, s.buf, ht, ?_, htr⟩
    refine hsk.resolve_left fun hnil => hshort ?_
    rw [hnil]
    decide

theorem safeWrapping_iff : SafeWrapping strict heap kind f ↔ ¬ Astray strict heap kind f := by
  obtain ⟨d, g, l, e, hr, hc, -, hs, hl⟩ := readBlocks_rep wrapAdd_wrapAdd heap f
  obtain ⟨hg, hi⟩ := start_inv heap hr hc hs hl
  unfold SafeWrapping
  rw [e, hg]
  exact safeFrom_iff hi

theorem safe_iff_of_len (hmax : f.length ≤ 2147483647) :
    Safe strict heap kind f ↔ ¬ Astray strict heap kind f := by
  obtain ⟨d, g, l, e, hr, hc, -, hs, hl⟩ := readLoop_rep heap f hmax
  obtain ⟨hg, hi⟩ := start_inv heap hr hc hs hl
  unfold Safe
  rw [e, hg]
  exact safeFrom_iff hi

theorem Safe.length_le (h : Safe strict heap kind f) : f.length ≤ 2147483647 := by
  obtain ⟨crc, d, e, -⟩ := h
  refine (readLoop_defined heap f).mp ?_
  rw [e]
  exact Option.some_ne_none _

end

/-- **Accesses of the extractor**, for every file of any length, in the turns that its loop
takes. -/
theorem safe_iff (strict : Bool) (heap : Heap) (kind : Kind) (f : List UInt8) :
    (Safe strict heap kind f ↔ f.length ≤ 2147483647 ∧ ¬ Astray strict heap kind f) ∧
    (SafeWrapping strict heap kind f ↔ ¬ Astray strict heap kind f) ∧
    ∀ (crc : UInt32) (fuel : Nat) (s : State),
      extractLoop kind crc fuel s.d s.trb s.buf = (run (turn kind crc) fuel s).join := by
  refine ⟨?_, safeWrapping_iff, extractLoop_run kind⟩
  constructor
  · intro h
    exact ⟨h.length_le, (safe_iff_of_len h.length_le).mp h⟩
  · rintro ⟨hmax, h⟩
    exact (safe_iff_of_len hmax).mpr h

/-- a file that is nothing but a trailer -/
def loneTrailer : Trailer := ⟨fwimageMagic, 0, fwimageSignature, [0, 0, 0], 16⟩

theorem safe_lone : ¬ Safe false zeroHeap .signature loneTrailer.bytes := by
  have hl := loneTrailer.bytes_length rfl
  have ht : tailOf loneTrailer.bytes = loneTrailer.bytes := by
    unfold tailOf
    rw [hl]
    rfl
  refine fun h => (safe_iff_of_len (by rw [hl]; decide)).mp h
    ⟨[], loneTrailer.bytes, zeroHeap.buf.1, hl, ?_, .inr ⟨?_, .inl rfl⟩⟩
  · rw [ht, List.nil_append]
    exact .refl _ _
  · rw [loneTrailer.ofBytes_bytes rfl]
    rfl

end Fwtool
