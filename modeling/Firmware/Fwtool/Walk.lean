import Firmware.Fwtool.Tail

/-!
# fwtool: the walk over the chunks, on the tail of the file

`tailLoop` is the loop of `extract_data` on the bytes that are left, without the two buffers;
`extractLoop_eq` says that the code computes it, and `extractData_eq` puts it together with the
reading.  `tailLoop_chunk` is one turn on a complete chunk.
-/

set_option linter.unusedVariables false

namespace Fwtool
open Img Word CInt Blocks

/-- the bytes left and the output buffer after the payload of a chunk has been taken: `n` bytes
from the end of `l`, or all of `l` when there are fewer -/
def takePayload (l buf : List UInt8) (n : Nat) : List UInt8 × List UInt8 :=
  if n ≤ l.length then (l.take (l.length - n), l.drop (l.length - n) ++ buf.drop n)
  else ([], buf.take (n - l.length) ++ (l ++ buf.drop n))

/-- the loop over the chunks at the end of `l`; the file has `g` more bytes in front -/
def tailLoop (kind : Kind) (crc : UInt32) (g : Nat) :
    Nat → List UInt8 → List UInt8 → Option Result
  | 0, _, _ => none
  | fuel + 1, l, buf =>
    if l.length < trailerLen then some ⟨1, [], g⟩
    else
      let tr := Trailer.ofBytes (l.drop (l.length - trailerLen))
      let l := l.take (l.length - trailerLen)
      let dataLen := toInt (tr.size - UInt32.ofNat trailerLen)
      if tr.magic ≠ fwimageMagic then some ⟨1, [], (g + l.length : Nat)⟩
      else if l = [] then none
      else if tr.crc32 ≠ crc32Block crc l then some ⟨1, [], (g + l.length : Nat)⟩
      else if dataLen > bufLen then some ⟨1, [], (g + l.length : Nat)⟩
      else if dataLen < 0 then none
      else
        let (l, buf) := takePayload l buf dataLen.toNat
        useChunk kind (tailLoop kind crc g fuel l buf) tr.type dataLen (g + l.length : Nat) buf

theorem takePayload_append (l d buf : List UInt8) :
    takePayload (l ++ d) buf d.length = (l, d ++ buf.drop d.length) := by
  have hlen : (l ++ d).length = l.length + d.length := List.length_append
  unfold takePayload
  rw [if_pos (by omega), hlen, Nat.add_sub_cancel, List.take_left, List.drop_left]

theorem takePayload_length {l buf : List UInt8} {n : Nat} (hn : n ≤ bufLen)
    (hb : buf.length = bufLen) : (takePayload l buf n).2.length = bufLen := by
  unfold takePayload
  split
  · rw [List.length_append, List.length_drop, List.length_drop]
    omega
  · rw [List.length_append, List.length_take, List.length_append, List.length_drop]
    omega

/-- both calls of `extract_tail` in one: the destination and the bytes left -/
theorem extractTail_payload {d : DataBuf} {l : List UInt8} (hr : Rep d l)
    (hc : d.cur.isNone = false) {n : Nat} (hn : n ≤ bufLen) (buf : List UInt8)
    (hb : n ≤ buf.length) :
    ∃ r d', extractTail d buf n = some (r, d', (takePayload l buf n).2) ∧
      Rep d' (takePayload l buf n).1 ∧ Settled d' (takePayload l buf n).1 ∧
      d'.fileLen = d.fileLen - l.length + (takePayload l buf n).1.length := by
  unfold takePayload
  by_cases h : n ≤ l.length
  · rw [if_pos h]
    obtain ⟨d', e, h1, h2, h3⟩ := extractTail_whole hr hc h hn buf hb
    refine ⟨0, d', e, h1, h2, ?_⟩
    rw [h3, List.length_take]
    omega
  · rw [if_neg h]
    obtain ⟨d', e, h1, h2, h3⟩ := extractTail_short hr hc (by omega) hn buf hb
    refine ⟨1, d', e, h2, by simp [Settled, h1], ?_⟩
    rw [h3]
    show _ = _ + ((0 : Nat) : Int)
    omega

/-- the last 16 bytes, when there are as many -/
theorem cut_trailer {l : List UInt8} (h : ¬ l.length < trailerLen) :
    ∃ l1 t, l = l1 ++ t ∧ t.length = trailerLen := by
  refine ⟨_, _, (List.take_append_drop (l.length - trailerLen) l).symm, ?_⟩
  rw [List.length_drop]
  omega

/-- too little is left for a trailer -/
theorem extractTail_less {d : DataBuf} {l : List UInt8} (hr : Rep d l)
    (hcl : d.cur.isNone = true → l = []) (hl : l.length < trailerLen) {trb : List UInt8}
    (ht : trb.length = trailerLen) :
    ∃ d' trb', extractTail d trb trailerLen = some (1, d', trb') ∧
      d'.fileLen = d.fileLen - l.length := by
  have hB := bufLen_eq
  have h16 : trailerLen = 16 := rfl
  cases hc : d.cur.isNone with
  | true =>
    refine ⟨d, trb, extractTail_none hc _ _, ?_⟩
    rw [hcl hc, List.length_nil]
    omega
  | false =>
    obtain ⟨d', e, -, -, hf⟩ := extractTail_short hr hc hl (by omega) trb (by omega)
    exact ⟨d', _, e, hf⟩

/-- the trailer `t` is taken off -/
theorem extractTail_trailer {d : DataBuf} {l t : List UInt8} (hr : Rep d (l ++ t))
    (hcl : d.cur.isNone = true → l ++ t = []) (ht : t.length = trailerLen) {trb : List UInt8}
    (hb : trb.length = trailerLen) :
    d.cur.isNone = false ∧ ∃ d', extractTail d trb trailerLen = some (0, d', t) ∧ Rep d' l ∧
      Settled d' l ∧ d'.fileLen = d.fileLen - trailerLen := by
  have hB := bufLen_eq
  have h16 : trailerLen = 16 := rfl
  have hlen : (l ++ t).length = l.length + trailerLen := by rw [List.length_append, ht]
  have hk : (l ++ t).length - trailerLen = l.length := by omega
  have hc : d.cur.isNone = false := Bool.eq_false_iff.mpr fun hc => by
    rw [hcl hc, List.length_nil] at hlen
    omega
  obtain ⟨d', e, h1, h2, h3⟩ := extractTail_whole hr hc (n := trailerLen) (by omega) (by omega)
    trb (by omega)
  rw [hk, List.drop_left, List.drop_eq_nil_of_le (by omega), List.append_nil] at e
  rw [hk, List.take_left] at h1 h2
  exact ⟨hc, d', e, h1, h2, h3⟩

/-- **The buffers are one tail**: the loop of the code is the loop on lists. -/
theorem extractLoop_eq (kind : Kind) (crc : UInt32) (g : Nat) :
    ∀ (fuel : Nat) (d : DataBuf) (l trb buf : List UInt8), Rep d l →
      (d.cur.isNone = true → l = []) → d.fileLen = (g + l.length : Nat) →
      trb.length = trailerLen → buf.length = bufLen →
      extractLoop kind crc fuel d trb buf = tailLoop kind crc g fuel l buf := by
  intro fuel
  induction fuel with
  | zero =>
    intro d l trb buf _ _ _ _ _
    rfl
  | succ fuel ih =>
    intro d l trb buf hr hcl hf ht hb
    unfold extractLoop tailLoop
    by_cases hs : l.length < trailerLen
    · obtain ⟨d', trb', e, f⟩ := extractTail_less hr hcl hs ht
      rw [if_pos hs, e]
      simp only [Option.bind_eq_bind, Option.bind_some]
      rw [if_pos (by decide), f, hf]
      congr 2
      omega
    · obtain ⟨l1, t, rfl, ht'⟩ := cut_trailer hs
      obtain ⟨-, d1, e1, r1, s1, f1⟩ := extractTail_trailer hr hcl ht' ht
      have hlen : (l1 ++ t).length = l1.length + trailerLen := by rw [List.length_append, ht']
      have f1' : d1.fileLen = (g + l1.length : Nat) := by
        rw [f1, hf, hlen]
        omega
      rw [if_neg hs, show (l1 ++ t).length - trailerLen = l1.length by omega, List.take_left,
        List.drop_left, e1]
      simp only [Option.bind_eq_bind, Option.bind_some]
      rw [if_neg (by decide)]
      generalize Trailer.ofBytes t = tr
      by_cases hm : tr.magic ≠ fwimageMagic
      · rw [if_pos hm, if_pos hm, f1']
      rw [if_neg hm, if_neg hm]
      by_cases hne : l1 = []
      · rw [if_pos hne, tailCrc32_none (s1.mpr hne)]
        rfl
      have hc1 : d1.cur.isNone = false := by
        cases hc1 : d1.cur.isNone with
        | true => exact absurd (s1.mp hc1) hne
        | false => rfl
      rw [if_neg hne, tailCrc32_rep r1 hc1, Option.bind_some]
      by_cases hcrc : tr.crc32 ≠ crc32Block crc l1
      · rw [if_pos hcrc, if_pos hcrc, f1']
      rw [if_neg hcrc, if_neg hcrc]
      by_cases hbig : toInt (tr.size - UInt32.ofNat trailerLen) > bufLen
      · rw [if_pos hbig, if_pos hbig, f1']
      rw [if_neg hbig, if_neg hbig]
      by_cases hneg : toInt (tr.size - UInt32.ofNat trailerLen) < 0
      · rw [if_pos hneg, extractTail_neg r1 hc1 hneg]
        rfl
      rw [if_neg hneg]
      obtain ⟨n, hn⟩ := Int.eq_ofNat_of_zero_le (by omega : 0 ≤ toInt (tr.size - UInt32.ofNat
        trailerLen))
      rw [hn] at hbig ⊢
      obtain ⟨r, d2, e2, r2, s2, f2⟩ := extractTail_payload r1 hc1 (n := n) (by omega)
        buf (by omega)
      have f2 : d2.fileLen = (g + (takePayload l1 buf n).1.length : Nat) := by
        rw [f2, f1']
        omega
      rw [e2, Option.bind_some]
      show useChunk kind _ tr.type n d2.fileLen _ = useChunk kind _ tr.type n _ _
      rw [f2, ih d2 _ t _ r2 s2.mp f2 ht' (takePayload_length (by omega) hb)]
      rfl

/-- the file in front of the buffers, and the buffers -/
def headOf (f : List UInt8) : List UInt8 := f.take (f.length - tailLen f.length)

def tailOf (f : List UInt8) : List UInt8 := f.drop (f.length - tailLen f.length)

theorem head_tail_of {f g l : List UInt8} (hs : f = g ++ l) (hl : l.length = tailLen f.length) :
    headOf f = g ∧ tailOf f = l := by
  have hlen : f.length - tailLen f.length = g.length := by
    rw [← hl, hs, List.length_append, Nat.add_sub_cancel]
  unfold headOf tailOf
  rw [hlen, hs]
  exact ⟨List.take_left, List.drop_left⟩

/-- **`extract_data`** on a file whose length an `int` can hold. -/
theorem extractData_eq (heap : Heap) (kind : Kind) (trunc : Bool) (f : List UInt8)
    (hmax : f.length ≤ 2147483647) :
    extractData heap kind trunc f
      = (tailLoop kind (crc32Block 0xffffffff (headOf f)) (headOf f).length (f.length + 1)
          (tailOf f) heap.buf.1).map fun r =>
        (r.ret, r.out, if r.ret = 0 ∧ trunc = true then f.take r.fileLen.toNat else f) := by
  obtain ⟨d, g, l, e, hr, hc, hfl, hs, hl⟩ := readLoop_rep heap f hmax
  have hlen : f.length = g.length + l.length := by
    conv_lhs => rw [hs]
    exact List.length_append
  obtain ⟨hg, ht⟩ := head_tail_of hs hl
  unfold extractData
  rw [e, hg, ht]
  simp only [Option.bind_eq_bind, Option.bind_some]
  rw [extractLoop_eq kind _ g.length _ d l _ _ hr (by rw [hc]; simp) (by rw [hfl, hlen])
    heap.tr.2 heap.buf.2]
  cases tailLoop kind (crc32Block 0xffffffff g) g.length (f.length + 1) l heap.buf.1 with
  | none => rfl
  | some r =>
    rw [Option.bind_some, Option.map_some]
    split <;> rfl

end Fwtool
