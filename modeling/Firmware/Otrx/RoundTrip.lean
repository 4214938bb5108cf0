import Firmware.Otrx.Trx

/-!
# otrx: create, check and extract agree

* `Built`              the file in the making: zeros, then the partitions, each a file and zeros;
* `run_built`          every sequence of options builds such a file;
* `check_written`      the checksum in the header is the one that is checked;
* `extract_part`       the offsets in the header cut the partitions out;
* `create_roundTrip`   images of less than 4 GiB.
-/

set_option linter.unusedVariables false

namespace Otrx
open Img Word

variable {malloc : Nat → Bool} {s s' : St}

/-- the files of a command line -/
def files : List Opt → List (List UInt8)
  | [] => []
  | .f content :: os => content :: files os
  | .b _ :: os => files os

/-! ## the file in the making -/

/-- where the partitions start -/
def starts : Nat → List (List UInt8) → List Nat
  | _, [] => []
  | o, p :: ps => o :: starts (o + p.length) ps

theorem starts_cons (o : Nat) (p : List UInt8) (ps : List (List UInt8)) :
    starts o (p :: ps) = o :: starts (o + p.length) ps := rfl

theorem starts_length : ∀ (o : Nat) (ps : List (List UInt8)), (starts o ps).length = ps.length
  | _, [] => rfl
  | o, p :: ps => by
    rw [starts_cons, List.length_cons, List.length_cons, starts_length]

theorem starts_append : ∀ (o : Nat) (ps qs : List (List UInt8)),
    starts o (ps ++ qs) = starts o ps ++ starts (o + ps.flatten.length) qs
  | _, [], _ => rfl
  | o, p :: ps, qs => by
    rw [List.cons_append, starts_cons, starts_cons, starts_append, List.flatten_cons,
      List.length_append, List.cons_append, Nat.add_assoc]

theorem starts_snoc (o : Nat) (ps : List (List UInt8)) (p : List UInt8) :
    starts o (ps ++ [p]) = starts o ps ++ [o + ps.flatten.length] := starts_append o ps [p]

/-- a file followed by zeros -/
def part (p : List UInt8 × Nat) : List UInt8 := p.1 ++ List.replicate p.2 0

structure Built (s : St) (lead : Nat) (ps : List (List UInt8 × Nat)) : Prop where
  body : s.body = List.replicate lead 0 ++ (ps.map part).flatten
  idx : s.currIdx = ps.length
  curr : s.currOffset = headerLen + s.body.length
  offset : s.offset = (starts (headerLen + lead) (ps.map part)).map UInt32.ofNat ++
    List.replicate (trxMaxParts - ps.length) 0

theorem built_st0 : Built st0 0 [] := ⟨rfl, rfl, rfl, rfl⟩

theorem size_of_lt {n : Nat} (h : n < 4294967296) : size n = n := Nat.mod_eq_of_lt (by omega)

theorem body_le_zeros (length : Nat) (s : St) :
    s.body.length ≤ (appendZeros malloc length s).body.length := by
  unfold appendZeros
  split
  · simp
  · exact Nat.le_refl _

theorem body_le_align (s : St) : s.body.length ≤ (align malloc s).body.length := by
  unfold align
  split
  · exact Nat.le_refl _
  · exact body_le_zeros _ s

/-- the file only grows -/
theorem body_le_step {o : Opt} (h : step malloc s o = some s') : s.body.length ≤ s'.body.length := by
  cases o with
  | f content =>
    simp only [step] at h
    split at h
    · exact absurd h (by simp)
    · rw [← Option.some.inj h]
      refine Nat.le_trans ?_ (body_le_align _)
      show _ ≤ (s.body ++ content).length
      rw [List.length_append]
      omega
  | b n =>
    simp only [step] at h
    rw [← Option.some.inj h]
    split
    · exact Nat.le_refl _
    · exact body_le_zeros _ s

theorem body_le_run : ∀ {os : List Opt} {s : St}, run malloc s os = some s' →
    s.body.length ≤ s'.body.length
  | [], s, h => by rw [← Option.some.inj h]
  | o :: os, s, h => by
    obtain ⟨s1, h1, h2⟩ := Option.bind_eq_some_iff.mp h
    exact Nat.le_trans (body_le_step h1) (body_le_run h2)

/-- zeros belong to the last partition -/
theorem Built.zeros {lead : Nat} {ps : List (List UInt8 × Nat)} (h : Built s lead ps) {n : Nat}
    (hlt : headerLen + (appendZeros malloc n s).body.length < 4294967296) :
    ∃ lead' ps', Built (appendZeros malloc n s) lead' ps' ∧ ps'.map Prod.fst = ps.map Prod.fst := by
  unfold appendZeros at hlt ⊢
  split at hlt
  · next hm =>
    simp only [List.length_append, List.length_replicate] at hlt
    have hcurr : size (s.currOffset + n) = headerLen + (s.body ++ List.replicate n 0).length := by
      rw [h.curr, List.length_append, List.length_replicate, size_of_lt (by omega)]
      omega
    rw [if_pos hm]
    rcases List.eq_nil_or_concat ps with hnil | ⟨qs, q, hsnoc⟩
    · subst hnil
      refine ⟨lead + n, [], ⟨?_, h.idx, hcurr, h.offset⟩, rfl⟩
      show s.body ++ _ = _
      rw [h.body, List.map_nil, List.flatten_nil, List.append_nil, List.append_nil,
        List.replicate_append_replicate]
    · rw [List.concat_eq_append] at hsnoc
      subst hsnoc
      refine ⟨lead, qs ++ [(q.1, q.2 + n)], ⟨?_, ?_, hcurr, ?_⟩, ?_⟩
      · show s.body ++ _ = _
        rw [h.body]
        simp only [List.map_append, List.map_cons, List.map_nil, List.flatten_append,
          List.flatten_singleton, part, List.append_assoc, List.replicate_append_replicate]
      · show s.currIdx = _
        rw [h.idx, List.length_append, List.length_append]
        rfl
      · show s.offset = _
        rw [h.offset, List.map_append, List.map_append, List.map_singleton, List.map_singleton,
          starts_snoc, starts_snoc, List.length_append, List.length_append]
        rfl
      · rw [List.map_append, List.map_append]
        rfl
  · next hm =>
    rw [if_neg hm]
    exact ⟨lead, ps, h, rfl⟩

theorem Built.align {lead : Nat} {ps : List (List UInt8 × Nat)} (h : Built s lead ps)
    (hlt : headerLen + (align malloc s).body.length < 4294967296) :
    ∃ lead' ps', Built (align malloc s) lead' ps' ∧ ps'.map Prod.fst = ps.map Prod.fst := by
  unfold Otrx.align at hlt ⊢
  split at hlt
  · next hz =>
    rw [if_pos hz]
    exact ⟨lead, ps, h, rfl⟩
  · next hz =>
    rw [if_neg hz]
    exact h.zeros hlt

theorem set_append_length {α : Type} (a b : List α) (x y : α) :
    (a ++ y :: b).set a.length x = a ++ x :: b := by
  rw [List.set_append_right _ _ (Nat.le_refl _), Nat.sub_self, List.set_cons_zero]

/-- a file starts a partition -/
theorem Built.file {lead : Nat} {ps : List (List UInt8 × Nat)} (h : Built s lead ps)
    (hle : ps.length < trxMaxParts) (content : List UInt8)
    (hlt : headerLen + (s.body ++ content).length < 4294967296) :
    Built { s with
      body := s.body ++ content
      offset := s.offset.set s.currIdx (UInt32.ofNat s.currOffset)
      currIdx := s.currIdx + 1
      currOffset := size (s.currOffset + content.length) } lead (ps ++ [(content, 0)]) := by
  rw [List.length_append] at hlt
  refine ⟨?_, ?_, ?_, ?_⟩
  · show s.body ++ content = _
    rw [h.body]
    simp only [List.map_append, List.map_cons, List.map_nil, List.flatten_append,
      List.flatten_singleton, part, List.append_assoc, List.replicate_zero, List.append_nil]
  · show s.currIdx + 1 = _
    rw [h.idx, List.length_append]
    rfl
  · show size (s.currOffset + content.length) = headerLen + (s.body ++ content).length
    rw [h.curr, List.length_append, size_of_lt (by omega)]
    omega
  · show s.offset.set s.currIdx (UInt32.ofNat s.currOffset) = _
    have hl : ((starts (headerLen + lead) (ps.map part)).map UInt32.ofNat).length = s.currIdx := by
      rw [List.length_map, starts_length, List.length_map, h.idx]
    have hstart : headerLen + lead + (ps.map part).flatten.length = s.currOffset := by
      rw [h.curr, h.body, List.length_append, List.length_replicate]
      omega
    rw [h.offset, show trxMaxParts - ps.length = (trxMaxParts - (ps.length + 1)) + 1 by omega,
      List.replicate_succ, ← hl, set_append_length, List.map_append, List.map_singleton,
      starts_snoc, hstart, List.map_append, List.append_assoc, List.length_append]
    rfl

theorem Built.step {lead : Nat} {ps : List (List UInt8 × Nat)} (h : Built s lead ps) {o : Opt}
    (hs : step malloc s o = some s') (hlt : headerLen + s'.body.length < 4294967296) :
    ∃ lead' ps', Built s' lead' ps' ∧ ps'.map Prod.fst = ps.map Prod.fst ++ files [o] := by
  cases o with
  | f content =>
    simp only [Otrx.step] at hs
    split at hs
    · exact absurd hs (by simp)
    · next hidx =>
      rw [← Option.some.inj hs] at hlt ⊢
      have hb := Nat.lt_of_le_of_lt (Nat.add_le_add_left (body_le_align _) _) hlt
      obtain ⟨lead', ps', h1, h2⟩ := (h.file (by rw [← h.idx]; omega) content hb).align hlt
      refine ⟨lead', ps', h1, ?_⟩
      rw [h2, List.map_append]
      rfl
  | b n =>
    simp only [Otrx.step] at hs
    rw [← Option.some.inj hs] at hlt ⊢
    rw [show files [Opt.b n] = [] from rfl, List.append_nil]
    split at hlt
    · next hneg =>
      rw [if_pos hneg]
      exact ⟨lead, ps, h, rfl⟩
    · next hneg =>
      rw [if_neg hneg]
      exact h.zeros hlt

theorem files_cons (o : Opt) (os : List Opt) : files (o :: os) = files [o] ++ files os := by
  cases o <;> rfl

/-- **Every sequence of options** builds zeros and partitions. -/
theorem run_built : ∀ {os : List Opt} {s : St} {lead : Nat} {ps : List (List UInt8 × Nat)},
    Built s lead ps → run malloc s os = some s' → headerLen + s'.body.length < 4294967296 →
    ∃ lead' ps', Built s' lead' ps' ∧ ps'.map Prod.fst = ps.map Prod.fst ++ files os
  | [], s, lead, ps, h, hs, _ => ⟨lead, ps, Option.some.inj hs ▸ h, (List.append_nil _).symm⟩
  | o :: os, s, lead, ps, h, hs, hlt => by
    obtain ⟨s1, h1, h2⟩ := Option.bind_eq_some_iff.mp hs
    have hle := body_le_run h2
    obtain ⟨lead1, ps1, h3, h4⟩ := h.step h1 (by omega)
    obtain ⟨lead2, ps2, h5, h6⟩ := run_built h3 h2 hlt
    refine ⟨lead2, ps2, h5, ?_⟩
    rw [h6, h4, List.append_assoc, ← files_cons]

/-- three files at most -/
theorem run_some : ∀ (os : List Opt) (s : St), s.currIdx + (files os).length ≤ trxMaxParts →
    ∃ s', run malloc s os = some s'
  | [], s, _ => ⟨s, rfl⟩
  | o :: os, s, h => by
    rw [files_cons, List.length_append] at h
    have hidx : ∀ n s, (appendZeros malloc n s).currIdx = s.currIdx := by
      intro n s
      unfold appendZeros
      split <;> rfl
    have hstep : ∃ s1, step malloc s o = some s1 ∧ s1.currIdx = s.currIdx + (files [o]).length := by
      cases o with
      | f content =>
        have h1 : (files [Opt.f content]).length = 1 := rfl
        simp only [step]
        rw [if_neg (by omega)]
        refine ⟨_, rfl, ?_⟩
        unfold align
        split
        · rfl
        · exact hidx _ _
      | b n =>
        refine ⟨_, rfl, ?_⟩
        split
        · rfl
        · exact hidx _ _
    obtain ⟨s1, h1, h2⟩ := hstep
    obtain ⟨s', h3⟩ := run_some os s1 (by omega)
    refine ⟨s', ?_⟩
    unfold run
    rw [h1]
    exact h3

/-! ## the header -/

theorem bytes_split (h : Header) : h.bytes = (put32 false h.magic ++ (put32 false h.length ++
    put32 false h.crc32)) ++ (put16 false 0 ++ (put16 false 1 ++ h.offset.flatMap (put32 false))) := by
  unfold Header.bytes
  simp only [List.append_assoc]

theorem bytes_length {h : Header} (ho : h.offset.length = 3) : h.bytes.length = headerLen := by
  have : (h.offset.flatMap (put32 false)).length = 4 * h.offset.length := by
    induction h.offset with
    | nil => rfl
    | cons x l ih =>
      rw [List.flatMap_cons, List.length_append, put32_length, ih, List.length_cons]
      omega
  unfold Header.bytes
  simp only [List.length_append, put32_length, put16_length, this, ho, headerLen]

theorem readHeader_bytes {h : Header} (ho : h.offset.length = 3) (body : List UInt8) :
    readHeader (h.bytes ++ body) = some h := by
  obtain ⟨magic, length, crc32, offset⟩ := h
  match offset, ho with
  | [o0, o1, o2], _ =>
    have h0 : [o0, o1, o2].flatMap (put32 false)
        = put32 false o0 ++ (put32 false o1 ++ (put32 false o2 ++ [])) := rfl
    unfold readHeader Header.bytes
    simp only [h0, List.append_assoc, load32_put32, load32_put16, load32_head, Option.bind_eq_bind,
      Option.bind_some]

/-! ## checking -/

theorem crcLoop_eq : ∀ (fuel : Nat) (rest : List UInt8) (length : Nat) (crc : UInt32),
    length < fuel → length ≤ rest.length →
    crcLoop fuel rest length crc = (0, Crc.block Crc.table32 crc (rest.take length))
  | 0, _, _, _, h, _ => absurd h (by omega)
  | fuel + 1, rest, length, crc, h, hle => by
    have hl : (rest.take (min 1024 length)).length = min 1024 length := by
      rw [List.length_take]
      omega
    unfold crcLoop
    simp only [hl]
    by_cases hz : length = 0
    · rw [if_pos (by omega), hz]
      rfl
    · rw [if_neg (by omega), crcLoop_eq fuel _ _ _ (by omega) (by rw [List.length_drop]; omega),
        ← Crc.block_append, ← List.take_add, show min 1024 length + (length - min 1024 length)
          = length by omega]

/-- the file that `otrx_create_write_hdr` leaves, when all goes well -/
theorem writeHdr_eq {s : St} (hcurr : s.currOffset = headerLen + s.body.length)
    (ho : s.offset.length = 3) (hlt : headerLen + s.body.length < 4294967296)
    (hm : ∀ n, 0 < n → n < 4294967296 → malloc n = true) :
    ∃ hdr : Header, writeHdr malloc s = some (hdr.bytes ++ s.body) ∧ hdr.magic = trxMagic ∧
      hdr.length = UInt32.ofNat (headerLen + s.body.length) ∧ hdr.offset = s.offset ∧
      hdr.crc32 = otrxCrc32 ((hdr.bytes ++ s.body).drop trxFlagsOffset) := by
  have hn := UInt32.toNat_ofNat_of_lt' hlt
  have hlen : ∀ crc, (Header.bytes ⟨trxMagic, UInt32.ofNat s.currOffset, crc, s.offset⟩).length
      = headerLen := fun crc => bytes_length ho
  have hdrop : ∀ crc, (Header.bytes ⟨trxMagic, UInt32.ofNat s.currOffset, crc, s.offset⟩
      ++ s.body).drop trxFlagsOffset
      = (put16 false 0 ++ (put16 false 1 ++ s.offset.flatMap (put32 false))) ++ s.body := by
    intro crc
    rw [bytes_split, List.append_assoc]
    exact List.drop_left' (by simp [trxFlagsOffset])
  refine ⟨⟨trxMagic, UInt32.ofNat s.currOffset, otrxCrc32 ((Header.bytes
    ⟨trxMagic, UInt32.ofNat s.currOffset, 0, s.offset⟩ ++ s.body).drop trxFlagsOffset), s.offset⟩,
    ?_, rfl, by rw [hcurr], rfl, ?_⟩
  · unfold writeHdr
    have hfl : (Header.bytes ⟨trxMagic, UInt32.ofNat s.currOffset, 0, s.offset⟩ ++ s.body).length
        = headerLen + s.body.length := by rw [List.length_append, hlen]
    have hs : slice (Header.bytes ⟨trxMagic, UInt32.ofNat s.currOffset, 0, s.offset⟩ ++ s.body)
        trxFlagsOffset (headerLen + s.body.length - trxFlagsOffset)
        = (Header.bytes ⟨trxMagic, UInt32.ofNat s.currOffset, 0, s.offset⟩ ++ s.body).drop
          trxFlagsOffset := by
      unfold slice
      exact List.take_of_length_le (by rw [List.length_drop, hfl])
    simp only [hcurr] at hfl hs ⊢
    simp only [hn, hfl, hs]
    have h28 : headerLen = 28 := rfl
    have h12 : trxFlagsOffset = 12 := rfl
    rw [if_neg (by rw [hm _ (by omega) hlt]; simp), if_neg (by omega), if_neg (by omega)]
  · show otrxCrc32 _ = otrxCrc32 _
    rw [hdrop, hdrop]

theorem check_written {hdr : Header} {body : List UInt8} (ho : hdr.offset.length = 3)
    (hmagic : hdr.magic = trxMagic) (hlt : headerLen + body.length < 4294967296)
    (hl : hdr.length = UInt32.ofNat (headerLen + body.length))
    (hc : hdr.crc32 = otrxCrc32 ((hdr.bytes ++ body).drop trxFlagsOffset)) :
    check (hdr.bytes ++ body) = 0 := by
  have hn : hdr.length.toNat = headerLen + body.length := by
    rw [hl]
    exact UInt32.toNat_ofNat_of_lt' hlt
  have hfl : ((hdr.bytes ++ body).drop trxFlagsOffset).length
      = headerLen + body.length - trxFlagsOffset := by
    rw [List.length_drop, List.length_append, bytes_length ho]
  have hloop := crcLoop_eq (headerLen + body.length + 1) ((hdr.bytes ++ body).drop trxFlagsOffset)
    (headerLen + body.length - trxFlagsOffset) 0xffffffff (by omega) (by rw [hfl])
  rw [List.take_of_length_le (by rw [hfl])] at hloop
  have h28 : headerLen = 28 := rfl
  unfold check
  rw [readHeader_bytes ho]
  simp only [hmagic, hn, hloop]
  rw [if_neg (by simp), if_neg (by omega), if_neg (by simp), if_neg (by rw [hc]; simp [otrxCrc32])]

/-! ## extracting -/

theorem ofNat_ne_zero {n : Nat} (h0 : 0 < n) (h : n < 4294967296) : UInt32.ofNat n ≠ 0 := by
  intro he
  have := congrArg UInt32.toNat he
  rw [UInt32.toNat_ofNat_of_lt' h] at this
  exact absurd this (by simp; omega)

theorem ofNat_sub_toNat {a b : Nat} (hle : b ≤ a) (h : a < 4294967296) :
    (UInt32.ofNat a - UInt32.ofNat b).toNat = a - b := by
  have hb : b < 4294967296 := lt_of_le_of_lt hle h
  rw [UInt32.toNat_sub_of_le _ _ (by
    rw [UInt32.le_iff_toNat_le, UInt32.toNat_ofNat_of_lt' h, UInt32.toNat_ofNat_of_lt' hb]
    exact hle), UInt32.toNat_ofNat_of_lt' h, UInt32.toNat_ofNat_of_lt' hb]

theorem extractCopy_split {file a p c : List UInt8} {n : Nat}
    (hm : ∀ n, 0 < n → n < 4294967296 → malloc n = true) (hf : file = a ++ (p ++ c))
    (ha : a.length = n) (hlt : p.length < 4294967296) :
    extractCopy malloc file n p.length = p := by
  unfold extractCopy
  rw [Img.load_split hf ha rfl]
  rcases List.eq_nil_or_concat p with hnil | ⟨q, x, hsnoc⟩
  · subst hnil
    split <;> rfl
  · rw [if_pos (hm _ (by rw [hsnoc]; simp) hlt)]
    rfl

/-- **The neighbouring offsets** cut the partition out. -/
theorem extract_part {hdr : Header} {lead : Nat} {l r : List (List UInt8 × Nat)}
    {p : List UInt8 × Nat} (h : Built s lead (l ++ p :: r)) (hr : l.length + r.length < 3)
    (hm : ∀ n, 0 < n → n < 4294967296 → malloc n = true)
    (hlt : headerLen + s.body.length < 4294967296) (hmagic : hdr.magic = trxMagic)
    (hl : hdr.length = UInt32.ofNat (headerLen + s.body.length)) (ho : hdr.offset = s.offset)
    (ho3 : s.offset.length = 3) :
    extract malloc (hdr.bytes ++ s.body) l.length = some (part p) := by
  have h28 : headerLen = 28 := rfl
  have hmax : trxMaxParts = 3 := rfl
  have hb := h.body
  rw [List.map_append, List.map_cons, List.flatten_append, List.flatten_cons] at hb
  have hlen := congrArg List.length hb
  simp only [List.length_append, List.length_replicate] at hlen
  have hoff := h.offset
  rw [List.map_append, List.map_cons, starts_append, List.map_append, List.append_assoc,
    starts_cons, List.map_cons, List.cons_append] at hoff
  generalize hk : headerLen + lead + (l.map part).flatten.length = k at hoff
  have hll : ((starts (headerLen + lead) (l.map part)).map UInt32.ofNat).length = l.length := by
    rw [List.length_map, starts_length, List.length_map]
  have hat : hdr.offset.getD l.length 0 = UInt32.ofNat k := by
    rw [ho, hoff, ← hll, List.getD_eq_getElem?_getD, List.getElem?_append_right (Nat.le_refl _),
      Nat.sub_self]
    rfl
  have hnext : hdr.offset.getD (l.length + 1) 0 = (((starts (k + (part p).length)
      (r.map part)).map UInt32.ofNat) ++ List.replicate (trxMaxParts - (l ++ p :: r).length) 0).getD
        0 0 := by
    rw [ho, hoff, ← hll, List.getD_eq_getElem?_getD, List.getElem?_append_right (by omega),
      Nat.add_sub_cancel_left, List.getElem?_cons_succ, List.getD_eq_getElem?_getD]
  -- the end of the partition is the next start, or the end of the file
  have hcut : (if trxMaxParts ≤ l.length + 1 ∨ hdr.offset.getD (l.length + 1) 0 = 0
      then hdr.length - hdr.offset.getD l.length 0
      else hdr.offset.getD (l.length + 1) 0 - hdr.offset.getD l.length 0).toNat
      = (part p).length := by
    rw [hat, hnext, hl]
    cases r with
    | nil =>
      rw [List.map_nil, List.flatten_nil, List.length_nil] at hlen
      have hz : ∀ n, (List.replicate n (0 : UInt32)).getD 0 0 = 0 := by
        intro n
        cases n <;> rfl
      rw [if_pos (.inr (by exact hz _)), ofNat_sub_toNat (by omega) hlt]
      omega
    | cons q r =>
      rw [List.length_cons] at hr
      have hne : UInt32.ofNat (k + (part p).length) ≠ 0 := ofNat_ne_zero (by omega) (by omega)
      have hfst : (((starts (k + (part p).length) ((q :: r).map part)).map UInt32.ofNat) ++
          List.replicate (trxMaxParts - (l ++ p :: q :: r).length) 0).getD 0 0
          = UInt32.ofNat (k + (part p).length) := rfl
      rw [hfst, if_neg (by simp only [hne, or_false]; omega), ofNat_sub_toNat (by omega) (by omega)]
      omega
  unfold extract
  rw [readHeader_bytes (by rw [ho, ho3])]
  simp only [Option.bind_eq_bind, Option.bind_some, hcut]
  rw [if_neg (by simp [hmagic]), hat, if_neg (ofNat_ne_zero (by omega) (by omega)),
    UInt32.toNat_ofNat_of_lt' (by show _ < 4294967296; omega)]
  refine congrArg some (extractCopy_split (a := hdr.bytes ++ (List.replicate lead 0 ++
    (l.map part).flatten)) (c := (r.map part).flatten) hm ?_ ?_ (by omega))
  · rw [hb]
    simp only [List.append_assoc]
  · simp only [List.length_append, List.length_replicate, bytes_length (ho ▸ ho3)]
    omega

/-! ## round trip -/

/-- allocations of less than 4 GiB succeed, and no address space holds 2^62 bytes -/
structure Memory (malloc : Nat → Bool) : Prop where
  small : ∀ n, 0 < n → n < 4294967296 → malloc n = true
  large : ∀ n, 4611686018427387904 ≤ n → malloc n = false

/-- `strtol` -/
def IsLong (n : Int) : Prop := -9223372036854775808 ≤ n ∧ n < 9223372036854775808

/-- an offset that is already behind -/
theorem step_below {n : Int} (hm : Memory malloc) (hn : IsLong n) (hlt : n < s.currOffset)
    (hc : s.currOffset < 4294967296) : step malloc s (.b n) = some s := by
  have h1 : -9223372036854775808 ≤ n := hn.1
  simp only [step]
  -- the difference may wrap around: then it is too large for `malloc`
  by_cases hneg : ssize (n - s.currOffset) < 0
  · rw [if_pos hneg]
  · rw [if_neg hneg]
    unfold appendZeros
    rw [if_neg]
    rw [hm.large _ (by unfold ssize at hneg ⊢; omega)]
    simp

theorem run_append : ∀ (s : St) (o1 o2 : List Opt),
    run malloc s (o1 ++ o2) = (run malloc s o1).bind fun s => run malloc s o2
  | _, [], _ => rfl
  | s, o :: o1, o2 => by
    show (step malloc s o).bind _ = ((step malloc s o).bind _).bind _
    rw [Option.bind_assoc]
    congr 1
    funext s1
    exact run_append s1 o1 o2

/-- **Created images** are accepted and give the files back: the image is the header, zeros and
the partitions, each a file and zeros; an offset below the current length changes nothing. -/
theorem create_roundTrip (hm : Memory malloc) (opts : List Opt)
    (h3 : (files opts).length ≤ 3)
    (hlt : ∀ s, run malloc st0 opts = some s → headerLen + s.body.length < 4294967296) :
    (∃ (file hdr : List UInt8) (lead : Nat) (ps : List (List UInt8 × Nat)),
      create malloc opts = some file ∧ check file = 0 ∧
      file = hdr ++ (List.replicate lead 0 ++ (ps.map part).flatten) ∧ hdr.length = headerLen ∧
      ps.map Prod.fst = files opts ∧
      ∀ k, (hk : k < ps.length) → extract malloc file k = some (part (ps.get ⟨k, hk⟩))) ∧
    ∀ o1 o2 n s, opts = o1 ++ .b n :: o2 → IsLong n → run malloc st0 o1 = some s →
      n < s.currOffset → create malloc opts = create malloc (o1 ++ o2) := by
  obtain ⟨s, hs⟩ := @run_some malloc opts st0 ((Nat.zero_add _).symm ▸ h3)
  have hb := hlt s hs
  refine ⟨?_, ?_⟩
  · obtain ⟨lead, ps, h, hfst⟩ := run_built built_st0 hs hb
    rw [List.map_nil, List.nil_append] at hfst
    have hlen : ps.length ≤ 3 := by
      rw [← hfst, List.length_map] at h3
      exact h3
    have ho3 : s.offset.length = 3 := by
      rw [h.offset, List.length_append, List.length_map, starts_length, List.length_map,
        List.length_replicate, show trxMaxParts = 3 from rfl]
      omega
    obtain ⟨hdr, hw, hmagic, hl, ho, hc⟩ := writeHdr_eq h.curr ho3 hb hm.small
    have ho3' : hdr.offset.length = 3 := by rw [ho, ho3]
    refine ⟨hdr.bytes ++ s.body, hdr.bytes, lead, ps, ?_, check_written ho3' hmagic hb hl hc, ?_,
      bytes_length ho3', hfst, ?_⟩
    · unfold create
      rw [hs]
      exact hw
    · rw [h.body]
    · intro k hk
      have hps : ps = ps.take k ++ ps.get ⟨k, hk⟩ :: ps.drop (k + 1) := by simp
      have hkl : (ps.take k).length = k := by
        rw [List.length_take]
        omega
      have hcut : Built s lead (ps.take k ++ ps.get ⟨k, hk⟩ :: ps.drop (k + 1)) := by
        rw [← hps]
        exact h
      have hp := extract_part hcut (by rw [hkl, List.length_drop]; omega) hm.small hb hmagic hl ho
        ho3
      rw [hkl] at hp
      exact hp
  · intro o1 o2 n s1 hopts hn h1 hbelow
    subst hopts
    rw [run_append, h1] at hs
    have hle : s1.body.length ≤ s.body.length := body_le_run hs
    obtain ⟨lead, ps, h, -⟩ := run_built built_st0 h1 (by omega)
    have hskip := step_below hm hn hbelow (by rw [h.curr]; omega)
    unfold create
    rw [run_append, run_append, h1, Option.bind_some, Option.bind_some]
    show ((step malloc s1 (.b n)).bind fun s => run malloc s o2).bind _ = _
    rw [hskip, Option.bind_some]

def malloc40 (n : Nat) : Bool := n < 1099511627776

theorem memory_malloc40 : Memory malloc40 :=
  ⟨fun n _ h => decide_eq_true (by omega), fun n h => decide_eq_false (by omega)⟩

/-- three files, the second empty, and an offset that is already behind -/
theorem create_roundTrip_three :
    ∃ file, create malloc40 [.f [1, 2, 3], .b 48, .f [], .b 40, .f [4]] = some file ∧
      check file = 0 ∧
      extract malloc40 file 0 = some ([1, 2, 3] ++ List.replicate 17 0) ∧
      extract malloc40 file 1 = some [] ∧ extract malloc40 file 2 = some [4, 0, 0, 0] ∧
      create malloc40 [.f [1, 2, 3], .b 48, .f [], .b 40, .f [4]]
        = create malloc40 [.f [1, 2, 3], .b 48, .f [], .f [4]] := by
  obtain ⟨⟨file, hdr, lead, ps, h1, h2, -, -, -, -⟩, hskip⟩ := create_roundTrip memory_malloc40
    [.f [1, 2, 3], .b 48, .f [], .b 40, .f [4]] (by decide) (by
      intro s hs
      rw [← Option.some.inj hs]
      decide +kernel)
  refine ⟨file, h1, h2, ?_, ?_, ?_, hskip [.f [1, 2, 3], .b 48, .f []] [.f [4]] 40 _ rfl ?_ rfl ?_⟩
  · rw [← Option.some.inj h1]
    decide +kernel
  · rw [← Option.some.inj h1]
    decide +kernel
  · rw [← Option.some.inj h1]
    decide +kernel
  · unfold IsLong
    omega
  · decide +kernel

theorem writeHdr_short {s : St} (ho : s.offset.length = 3)
    (hn : (UInt32.ofNat s.currOffset).toNat = 16) :
    ∃ file, writeHdr malloc40 s = some file ∧ check file = -22 := by
  have hlen : (Header.bytes ⟨trxMagic, UInt32.ofNat s.currOffset, 0, s.offset⟩).length = 28 :=
    bytes_length ho
  unfold writeHdr
  simp only [hn]
  rw [if_neg (by decide), if_neg (by rw [List.length_append, hlen]; omega), if_neg (by decide)]
  refine ⟨_, rfl, ?_⟩
  unfold check
  rw [readHeader_bytes ho]
  simp only [hn]
  rw [if_neg (by simp), if_pos (by decide)]

/-- the length in the header is that of the image modulo 4 GiB -/
theorem create_past_4GiB : (files [.b 4294967312]).length ≤ 3 ∧ Memory malloc40 ∧
    ∃ file, create malloc40 [.b 4294967312] = some file ∧ check file = -22 := by
  refine ⟨by decide, memory_malloc40, ?_⟩
  have hz : ∀ k, malloc40 k = true → appendZeros malloc40 k st0
      = ⟨List.replicate k 0, 0, size (28 + k), [0, 0, 0]⟩ := by
    intro k hk
    unfold appendZeros
    rw [if_pos hk]
    rfl
  have hs : run malloc40 st0 [.b 4294967312]
      = some ⟨List.replicate 4294967284 0, 0, size (28 + 4294967284), [0, 0, 0]⟩ := by
    simp only [run, step, Option.bind_some]
    rw [if_neg (by decide), show (ssize (4294967312 - (st0.currOffset : Nat))).toNat = 4294967284
      by decide, hz _ (by decide)]
  obtain ⟨file, h1, h2⟩ := @writeHdr_short ⟨List.replicate 4294967284 0, 0, size (28 + 4294967284),
    [0, 0, 0]⟩ rfl (by decide)
  refine ⟨file, ?_, h2⟩
  unfold create
  rw [hs, Option.bind_some, h1]

end Otrx
