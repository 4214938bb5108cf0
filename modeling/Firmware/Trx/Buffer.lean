import Mathlib.Data.Nat.Bitwise
import Firmware.Otrx.RoundTrip
import Firmware.Trx.Trx

/-!
# trx: the buffer

What the options write, and where.

* `Inv`            the buffer between two options;
* `step_spec`      what an option does: it leaves the buffer exactly if it does not fit;
* `run_spec`       the same for all options;
* `finish_spec`    the image, which `otrx check` accepts.
-/

set_option linter.unusedVariables false

namespace Trx
open Img Word

/-! ## accesses -/

theorem write_inside (m d : List UInt8) (off : Nat) (h : off + d.length ≤ m.length) :
    ∃ m', write m off d = some m' ∧ m'.length = m.length ∧ slice m' off d.length = d ∧
      ∀ o k, o + k ≤ off → slice m' o k = slice m o k := by
  unfold write
  split
  · next h0 =>
    refine ⟨m, rfl, rfl, ?_, fun _ _ _ => rfl⟩
    rw [List.eq_nil_of_length_eq_zero h0]
    unfold slice
    exact List.take_zero
  · exact ⟨poke m off d, store_eq_some.mpr ⟨h, rfl⟩, poke_length m off d h, slice_poke_self m off d h,
      fun o k hk => slice_poke_before m off o k d hk (by omega)⟩

theorem write_outside {m d : List UInt8} {off : Nat} (h0 : d.length ≠ 0) (h : ¬off + d.length ≤ m.length) :
    write m off d = none := by
  unfold write
  rw [if_neg h0]
  exact if_neg h

theorem sub_eq {h : Host} {a b : Nat} (ha : a < h.size) (hb : b ≤ a) : h.sub a b = a - b := by
  unfold Host.sub
  rw [show a + (h.size - b) = a - b + h.size by omega, Nat.add_mod_right]
  exact Nat.mod_eq_of_lt (by omega)

theorem missing_spec {k : Nat} (hk : 0 < k) (n : Nat) : (n + missing k n) % k = 0 ∧ missing k n < k := by
  have hlt := Nat.mod_lt n hk
  unfold missing
  split
  · next h0 => exact ⟨h0, hk⟩
  · next h0 =>
    refine ⟨?_, by omega⟩
    rw [show n + (k - n % k) = n - n % k + k by have := Nat.mod_le n k; omega, Nat.add_mod_right]
    exact Nat.mod_eq_zero_of_dvd (Nat.dvd_sub_mod n)

/-! ## the state -/

structure Inv (s : St) : Prop where
  length : s.buf.length = maxlen
  mod : s.curLen % 4 = 0
  le : 28 ≤ s.curLen
  fits : s.curLen ≤ maxlen
  magic : slice s.buf 0 4 = put32 false trxMagic

/-- nothing changes in front of the fill position, which only grows -/
structure Grown (s t : St) : Prop where
  length : t.buf.length = s.buf.length
  le : s.curLen ≤ t.curLen
  slice : ∀ off k, off + k ≤ s.curLen → Img.slice t.buf off k = Img.slice s.buf off k
  i : t.i = s.i

variable {h : Host} {s t : St}

theorem Inv.grown (hs : Inv s) (hg : Grown s t) (hm : t.curLen % 4 = 0) (hf : t.curLen ≤ maxlen) : Inv t := by
  have hle := hs.le
  exact ⟨hg.length.trans hs.length, hm, Nat.le_trans hle hg.le, hf, (hg.slice 0 4 (by omega)).trans hs.magic⟩

/-- zeros behind the fill position -/
theorem fill_spec (hs : Inv s) {n : Nat} :
    (s.curLen + n ≤ maxlen ∧ ∃ buf, fill s n = .ok { s with buf, curLen := s.curLen + n } ∧
      Grown s { s with buf, curLen := s.curLen + n }) ∨
    (¬s.curLen + n ≤ maxlen ∧ fill s n = .outside) := by
  have hl := hs.length
  have hfit := hs.fits
  have hz : (zeros n).length = n := zeros_length n
  unfold fill
  by_cases hle : s.curLen + n ≤ maxlen
  · obtain ⟨m, hw, hm, -, hb⟩ := write_inside s.buf (zeros n) s.curLen (by omega)
    rw [hw]
    refine Or.inl ⟨hle, m, ?_, hm, Nat.le_add_right _ _, hb, rfl⟩
    unfold Res.inside uint32
    dsimp only
    rw [Nat.mod_eq_of_lt (by unfold maxlen at hle; omega)]
  · rw [write_outside (by omega) (by omega)]
    exact Or.inr ⟨hle, rfl⟩

/-- the first write of a file: as much of it as there is room for -/
theorem readFile_eq (hs : Inv s) (c : List UInt8) :
    ∃ buf, buf.length = maxlen ∧
      slice buf s.curLen (min (maxlen - s.curLen) c.length) = c.take (maxlen - s.curLen) ∧
      (∀ off k, off + k ≤ s.curLen → slice buf off k = slice s.buf off k) ∧
      readFile h s (some c) =
        if c.length < maxlen - s.curLen then
          .inside (write buf (s.curLen + c.length) (zeros (missing 4 c.length))) fun buf =>
            .ok { s with buf, curLen := uint32 (s.curLen + (c.length + missing 4 c.length)), opened := true }
        else .failure := by
  have hl := hs.length
  have hfit := hs.fits
  have hsize := h.le_size
  have hmax : maxlen = 7471104 := rfl
  have htake : (c.take (maxlen - s.curLen)).length = min (maxlen - s.curLen) c.length := List.length_take
  obtain ⟨buf, hw, hm, hc, hb⟩ := write_inside s.buf (c.take (maxlen - s.curLen)) s.curLen (by omega)
  rw [htake] at hc
  refine ⟨buf, hm.trans hl, hc, hb, ?_⟩
  unfold readFile
  dsimp only
  rw [sub_eq (by omega) hfit, hw]
  rfl

/-- a file that there is room for -/
theorem readFile_fits (hs : Inv s) {c : List UInt8} (hroom : s.curLen + c.length < maxlen) :
    ∃ buf n, n < 4 ∧ (c.length + n) % 4 = 0 ∧
      readFile h s (some c) = .ok { s with buf, curLen := s.curLen + (c.length + n), opened := true } ∧
      s.curLen + (c.length + n) ≤ maxlen ∧
      Grown s { s with buf, curLen := s.curLen + (c.length + n), opened := true } ∧
      slice buf s.curLen c.length = c := by
  have hl := hs.length
  have hmod := hs.mod
  have hmax : maxlen = 7471104 := rfl
  obtain ⟨m₁, hm₁, hc₁, hb₁, hr⟩ := readFile_eq (h := h) hs c
  rw [Nat.min_eq_right (by omega), List.take_of_length_le (by omega)] at hc₁
  obtain ⟨hround, hmiss⟩ := missing_spec (show 0 < 4 by decide) c.length
  have hz : (zeros (missing 4 c.length)).length = missing 4 c.length := zeros_length _
  obtain ⟨m₂, hw₂, hm₂, -, hb₂⟩ :=
    write_inside m₁ (zeros (missing 4 c.length)) (s.curLen + c.length) (by omega)
  refine ⟨m₂, missing 4 c.length, hmiss, hround, ?_, by omega,
    ⟨hm₂.trans (hm₁.trans hl.symm), Nat.le_add_right _ _,
      fun off k hk => (hb₂ off k (by omega)).trans (hb₁ off k hk), rfl⟩,
    (hb₂ _ _ (Nat.le_refl _)).trans hc₁⟩
  rw [hr, if_pos (by omega), hw₂]
  unfold Res.inside uint32
  dsimp only
  rw [Nat.mod_eq_of_lt (by omega)]

/-- a file, with or without room for it -/
theorem readFile_spec (hs : Inv s) (content : Option (List UInt8)) :
    readFile h s content = .failure ∨ ∃ c, content = some c ∧ s.curLen + c.length < maxlen := by
  cases content with
  | none => exact Or.inl rfl
  | some c =>
    by_cases hroom : s.curLen + c.length < maxlen
    · exact Or.inr ⟨c, rfl, hroom⟩
    · obtain ⟨buf, -, -, -, hr⟩ := readFile_eq (h := h) hs c
      exact Or.inl (hr.trans (if_neg (by omega)))

/-! ## an option -/

/-- `-a` takes powers of two, `-b` multiples of 4 -/
def Legal (h : Host) : Opt → Prop
  | .a (some n) => (∃ k, n = 2 ^ k) ∧ n < h.size
  | .b (some n) => 4 ∣ n ∧ n < h.size
  | _ => True

/-- the slot and the zeros of the option are inside the buffer -/
def Fits (s : St) : Opt → Prop
  | .f _ => slot s.i + 4 ≤ maxlen
  | .a (some n) => s.curLen + missing n s.curLen ≤ maxlen
  | .b (some n) => n ≤ maxlen
  | _ => True

/-- the state with the slot of the next file -/
def St.record (s : St) : St :=
  { s with buf := poke s.buf (slot s.i) (put32 false (UInt32.ofNat s.curLen)), i := s.i + 1 }

/-- the state behind the slot of an option -/
def St.mark (s : St) : Opt → St
  | .f _ => s.record
  | _ => s

/-- where the option puts a file of `-f`, and what is in it -/
def places (s : St) : Opt → List (Nat × List UInt8)
  | .f (some content) => [(s.curLen, content)]
  | _ => []

/-- what an option does that the tool goes on after -/
structure Stepped (s : St) (o : Opt) (t : St) : Prop where
  grown : Grown (s.mark o) t
  i : t.i = s.i + (places s o).length
  placed : ∀ p ∈ places s o, p.1 + p.2.length ≤ t.curLen ∧ slice t.buf p.1 p.2.length = p.2

theorem record_inv (hs : Inv s) (hfit : slot s.i + 4 ≤ maxlen) : Inv s.record := by
  have hl := hs.length
  have h4 : (put32 false (UInt32.ofNat s.curLen)).length = 4 := put32_length false _
  refine ⟨(poke_length _ _ _ (by omega)).trans hl, hs.mod, hs.le, hs.fits, ?_⟩
  exact (slice_poke_before s.buf (slot s.i) 0 4 _ (by unfold slot; omega) (by omega)).trans hs.magic

theorem step_f (content : Option (List UInt8)) (hs : Inv s) :
    step h s (.f content) = if slot s.i + 4 ≤ maxlen then readFile h s.record content else .outside := by
  have hl := hs.length
  have h4 : (put32 false (UInt32.ofNat s.curLen)).length = 4 := put32_length false _
  unfold step store
  dsimp only
  rw [h4, hl]
  split
  · rfl
  · rfl

theorem Grown.refl (s : St) : Grown s s := ⟨rfl, Nat.le_refl _, fun _ _ _ => rfl, rfl⟩

/-- an option without a slot -/
theorem Grown.stepped (hg : Grown s t) {o : Opt} (hm : s.mark o = s) (hp : places s o = []) : Stepped s o t := by
  refine ⟨hm.symm ▸ hg, ?_, ?_⟩
  · rw [hp]
    exact hg.i
  · rw [hp]
    exact fun p h => absurd h List.not_mem_nil

/-- `-a` fills up to the next multiple -/
theorem step_a {n : Nat} (hs : Inv s) (hl : Legal h (.a (some n))) :
    step h s (.a (some n)) = fill s (missing n s.curLen) := by
  obtain ⟨⟨k, rfl⟩, hlt⟩ := hl
  have hpos := Nat.two_pow_pos k
  have hfit := hs.fits
  have hmax : maxlen = 7471104 := rfl
  have hr : s.curLen &&& h.sub (2 ^ k) 1 = s.curLen % 2 ^ k := by
    rw [sub_eq hlt hpos]
    exact Nat.and_two_pow_sub_one_eq_mod _ _
  unfold step missing
  dsimp only
  rw [hr]
  by_cases h0 : s.curLen % 2 ^ k = 0
  · rw [if_neg (not_not.mpr h0), if_pos h0]
    unfold fill write zeros Res.inside uint32
    rw [List.length_replicate, if_pos rfl, Nat.add_zero]
    dsimp only
    rw [Nat.mod_eq_of_lt (by omega)]
  · have hlt' := Nat.mod_lt s.curLen hpos
    rw [if_pos h0, if_neg h0, sub_eq hlt (Nat.le_of_lt hlt')]

/-- a power of two above 2 is a multiple of 4 -/
theorem missing_mod {k m : Nat} (hm : m % 4 = 0) : (m + missing (2 ^ k) m) % 4 = 0 := by
  obtain ⟨hmod, hlt⟩ := missing_spec (Nat.two_pow_pos k) m
  by_cases hk : 2 ≤ k
  · obtain ⟨j, rfl⟩ := Nat.exists_eq_add_of_le hk
    exact Nat.mod_eq_zero_of_dvd (dvd_trans ⟨2 ^ j, by rw [Nat.pow_add]⟩ (Nat.dvd_of_mod_eq_zero hmod))
  · obtain rfl | rfl : k = 0 ∨ k = 1 := by omega
    · omega
    · omega

/-- filling up, as an option -/
theorem fill_stepped (hs : Inv s) {n : Nat} (hmod : (s.curLen + n) % 4 = 0) :
    (¬s.curLen + n ≤ maxlen ∧ fill s n = .outside) ∨
      (s.curLen + n ≤ maxlen ∧ ∃ t, fill s n = .ok t ∧ Inv t ∧ Grown s t) := by
  rcases fill_spec hs (n := n) with ⟨hle, buf, hf, hg⟩ | ⟨hle, hf⟩
  · exact Or.inr ⟨hle, _, hf, hs.grown hg hmod hle, hg⟩
  · exact Or.inl ⟨hle, hf⟩

/-- **An option**: it leaves the buffer exactly if it does not fit. -/
theorem step_spec (hs : Inv s) {o : Opt} (hl : Legal h o) :
    (¬Fits s o ∧ step h s o = .outside) ∨
      (Fits s o ∧ (step h s o = .failure ∨ ∃ t, step h s o = .ok t ∧ Inv t ∧ Stepped s o t)) := by
  have hmod := hs.mod
  cases o with
  | f content =>
    rw [step_f content hs]
    unfold Fits
    by_cases hfit : slot s.i + 4 ≤ maxlen
    · have hr := record_inv hs hfit
      rw [if_pos hfit]
      refine Or.inr ⟨hfit, ?_⟩
      rcases readFile_spec (h := h) hr content with hf | ⟨c, rfl, hroom⟩
      · exact Or.inl hf
      · obtain ⟨buf, n, -, hm, hok, hle, hg, hc⟩ := readFile_fits (h := h) hr hroom
        refine Or.inr ⟨_, hok, hr.grown hg ?_ hle, hg, rfl, fun p hp => ?_⟩
        · have := hr.mod
          dsimp only
          omega
        · obtain rfl := List.mem_singleton.mp hp
          exact ⟨Nat.add_le_add_left (Nat.le_add_right _ _) _, hc⟩
    · rw [if_neg hfit]
      exact Or.inl ⟨hfit, rfl⟩
  | A content =>
    refine Or.inr ⟨trivial, ?_⟩
    rcases readFile_spec (h := h) hs content with hf | ⟨c, rfl, hroom⟩
    · exact Or.inl hf
    · obtain ⟨buf, n, -, hm, hok, hle, hg, -⟩ := readFile_fits (h := h) hs hroom
      exact Or.inr ⟨_, hok, hs.grown hg (by dsimp only; omega) hle, hg.stepped rfl rfl⟩
  | a n =>
    cases n with
    | none => exact Or.inr ⟨trivial, Or.inl rfl⟩
    | some n =>
      rw [step_a hs hl]
      obtain ⟨⟨k, rfl⟩, -⟩ := hl
      rcases fill_stepped hs (missing_mod (k := k) hmod) with ⟨hle, hf⟩ | ⟨hle, hok⟩
      · exact Or.inl ⟨hle, hf⟩
      · obtain ⟨t, hok, ht, hg⟩ := hok
        exact Or.inr ⟨hle, Or.inr ⟨t, hok, ht, hg.stepped rfl rfl⟩⟩
  | b n =>
    cases n with
    | none => exact Or.inr ⟨trivial, Or.inl rfl⟩
    | some n =>
      have hfit := hs.fits
      have h4 : n % 4 = 0 := Nat.mod_eq_zero_of_dvd hl.1
      unfold step Fits
      dsimp only
      by_cases hlt : n < s.curLen
      · rw [if_pos hlt]
        exact Or.inr ⟨by omega, Or.inr ⟨s, rfl, hs, (Grown.refl s).stepped rfl rfl⟩⟩
      · rw [if_neg hlt]
        rcases fill_stepped hs (n := n - s.curLen) (by omega) with ⟨hle, hf⟩ | ⟨hle, hok⟩
        · exact Or.inl ⟨by omega, hf⟩
        · obtain ⟨t, hok, ht, hg⟩ := hok
          exact Or.inr ⟨by omega, Or.inr ⟨t, hok, ht, hg.stepped rfl rfl⟩⟩

/-- an option that the tool goes on after -/
theorem step_ok (hs : Inv s) {o : Opt} (hl : Legal h o) (hst : step h s o = .ok t) :
    Fits s o ∧ Inv t ∧ Stepped s o t := by
  rcases step_spec hs hl with ⟨-, hf⟩ | ⟨hfit, hf | ⟨u, hu, hinv, hstep⟩⟩
  · rw [hf] at hst
    exact absurd hst (by simp)
  · rw [hf] at hst
    exact absurd hst (by simp)
  · rw [hu] at hst
    obtain rfl := Res.ok.inj hst
    exact ⟨hfit, hinv, hstep⟩

/-! ## a run -/

/-- what holds of every option that the tool comes to, with the state in front of it -/
def Along (h : Host) (P : St → Opt → Prop) : St → List Opt → Prop
  | _, [] => True
  | s, o :: os => P s o ∧ ∀ t, step h s o = .ok t → Along h P t os

theorem run_cons (o : Opt) (os : List Opt) : run h s (o :: os) = (step h s o).bind fun t => run h t os := rfl

theorem along_cons {P : St → Opt → Prop} {o : Opt} {os : List Opt} (hst : step h s o = .ok t) :
    Along h P s (o :: os) ↔ P s o ∧ Along h P t os := by
  constructor
  · exact fun hall => ⟨hall.1, hall.2 t hst⟩
  · rintro ⟨hp, hall⟩
    refine ⟨hp, fun u hu => ?_⟩
    rw [hst] at hu
    obtain rfl := Res.ok.inj hu
    exact hall

/-- **A run** leaves the buffer exactly if it comes to an option that does not fit. -/
theorem run_spec {os : List Opt} : ∀ {s : St}, Inv s → (∀ o ∈ os, Legal h o) →
    (¬Along h Fits s os ∧ run h s os = .outside) ∨
      (Along h Fits s os ∧ (run h s os = .failure ∨ ∃ t, run h s os = .ok t ∧ Inv t)) := by
  induction os with
  | nil => exact fun {s} hs _ => Or.inr ⟨trivial, Or.inr ⟨s, rfl, hs⟩⟩
  | cons o os ih =>
    intro s hs hl
    rw [run_cons]
    rcases step_spec hs (hl o List.mem_cons_self) with ⟨hfit, hst⟩ | ⟨hfit, hst | ⟨t, hst, ht, -⟩⟩
    · rw [hst]
      exact Or.inl ⟨fun h => hfit h.1, rfl⟩
    · refine Or.inr ⟨⟨hfit, fun t ht => ?_⟩, Or.inl (by rw [hst]; rfl)⟩
      rw [hst] at ht
      exact absurd ht (by simp)
    · rw [along_cons hst, hst]
      rcases ih ht fun o ho => hl o (List.mem_cons_of_mem _ ho) with ⟨hno, hr⟩ | ⟨hall, hr⟩
      · exact Or.inl ⟨fun h => hno h.2, hr⟩
      · exact Or.inr ⟨⟨hfit, hall⟩, hr⟩

theorem run_ok {os : List Opt} (hs : Inv s) (hl : ∀ o ∈ os, Legal h o) (hr : run h s os = .ok t) : Inv t := by
  rcases run_spec hs hl with ⟨-, hf⟩ | ⟨-, hf | ⟨u, hu, hinv⟩⟩
  · rw [hf] at hr
    exact absurd hr (by simp)
  · rw [hf] at hr
    exact absurd hr (by simp)
  · rw [hu] at hr
    obtain rfl := Res.ok.inj hr
    exact hinv

/-! ## the image -/

/-- a word that is inside -/
theorem load32_slice {m : List UInt8} {off : Nat} (h : off + 4 ≤ m.length) :
    load32 false m off = some (get32 false (slice m off 4)) := by
  unfold load32
  rw [load_eq_some.mpr ⟨h, rfl⟩]
  rfl

/-- what `otrx check` looks at -/
theorem check_of_fields {image : List UInt8} (hlen : 28 ≤ image.length) (hlt : image.length < 4294967296)
    (hmagic : slice image 0 4 = put32 false trxMagic)
    (hlength : slice image 4 4 = put32 false (UInt32.ofNat image.length))
    (hcrc : slice image 8 4 = put32 false (crc32buf (image.drop 12))) : Otrx.check image = 0 := by
  have hn : (UInt32.ofNat image.length).toNat = image.length := UInt32.toNat_ofNat_of_lt' hlt
  have hloop := Otrx.crcLoop_eq (image.length + 1) (image.drop Otrx.trxFlagsOffset)
    (image.length - Otrx.trxFlagsOffset) 0xffffffff (by omega) (by rw [List.length_drop])
  rw [List.take_of_length_le (by rw [List.length_drop])] at hloop
  unfold Otrx.check Otrx.readHeader
  rw [load32_slice (by omega), load32_slice (by omega), load32_slice (by omega), load32_slice (by omega),
    load32_slice (by omega), load32_slice (by omega), hmagic, hlength, hcrc]
  simp only [Option.bind_eq_bind, Option.bind_some, get32_put32, hn, hloop]
  rw [if_neg (by decide), if_neg (by unfold Otrx.headerLen; omega), if_neg (by decide)]
  exact if_neg (not_not.mpr rfl)

/-- the last two fields of the header, and the cut -/
theorem image_fields {m : List UInt8} {n : Nat} (crc len : UInt32) (h16 : 16 ≤ n) (hn : n ≤ m.length) :
    ∃ m₁ m₂ image, store m 8 (put32 false crc) = some m₁ ∧ store m₁ 4 (put32 false len) = some m₂ ∧
      load m₂ 0 n = some image ∧ image.length = n ∧ slice image 0 4 = slice m 0 4 ∧
      slice image 4 4 = put32 false len ∧ slice image 8 4 = put32 false crc ∧
      ∀ off k, 12 ≤ off → off + k ≤ n → slice image off k = slice m off k := by
  have hc : (put32 false crc).length = 4 := put32_length false crc
  have hl : (put32 false len).length = 4 := put32_length false len
  have h1 : (poke m 8 (put32 false crc)).length = m.length := poke_length _ _ _ (by omega)
  have h2 : (poke (poke m 8 (put32 false crc)) 4 (put32 false len)).length = m.length :=
    (poke_length _ _ _ (by omega)).trans h1
  have hs8 := slice_poke_self m 8 (put32 false crc) (by omega)
  have hs4 := slice_poke_self (poke m 8 (put32 false crc)) 4 (put32 false len) (by omega)
  rw [hc] at hs8
  rw [hl] at hs4
  refine ⟨_, _, _, store_eq_some.mpr ⟨by omega, rfl⟩, store_eq_some.mpr ⟨by omega, rfl⟩,
    load_eq_some.mpr ⟨by omega, rfl⟩, slice_length _ _ _ (by omega), ?_, ?_, ?_, ?_⟩
  · rw [slice_slice _ (by omega), Nat.zero_add, slice_poke_before _ _ _ _ _ (by omega) (by omega),
      slice_poke_before _ _ _ _ _ (by omega) (by omega)]
  · rw [slice_slice _ (by omega)]
    exact hs4
  · rw [slice_slice _ (by omega), Nat.zero_add, slice_poke_after _ _ _ _ _ (by omega) (by omega)]
    exact hs8
  · intro off k hoff hk
    rw [slice_slice _ (by omega), Nat.zero_add, slice_poke_after _ _ _ _ _ (by omega) (by omega),
      slice_poke_after _ _ _ _ _ (by omega) (by omega)]

/-- **The image**: it is accepted, and behind the header fields it is the buffer. -/
theorem finish_spec (hs : Inv s) (fwrite : Bool) :
    (finish h fwrite s = .failure ∧ (s.opened = false ∨ fwrite = false)) ∨
      ∃ image, finish h fwrite s = .ok image ∧ Otrx.check image = 0 ∧
        load32 false image 12 = some 0x10000 ∧ 4096 ∣ image.length ∧ s.curLen ≤ image.length ∧
        ∀ off n, 16 ≤ off → off + n ≤ s.curLen → slice image off n = slice s.buf off n := by
  have hlen := hs.length
  have hle := hs.le
  have hfit := hs.fits
  have hmax : maxlen = 7471104 := rfl
  have hsize := h.le_size
  have h4 : (put32 false 0x10000).length = 4 := put32_length false _
  -- `flag_version`
  have hs₁ : Inv { s with buf := poke s.buf 12 (put32 false 0x10000) } :=
    ⟨(poke_length _ _ _ (by omega)).trans hlen, hs.mod, hle, hfit,
      (slice_poke_before s.buf 12 0 4 _ (by omega) (by omega)).trans hs.magic⟩
  have hflag : slice (poke s.buf 12 (put32 false 0x10000)) 12 4 = put32 false 0x10000 := by
    have hsf := slice_poke_self s.buf 12 (put32 false 0x10000) (by omega)
    rwa [h4] at hsf
  unfold finish
  rw [store_eq_some.mpr ⟨by omega, rfl⟩]
  unfold Res.inside
  dsimp only
  cases hopen : s.opened with
  | false => exact Or.inl ⟨rfl, Or.inl rfl⟩
  | true =>
    rw [if_pos rfl]
    obtain ⟨hmod, hlt⟩ := missing_spec (show 0 < 4096 by decide) s.curLen
    rcases fill_spec hs₁ (n := missing 4096 s.curLen) with ⟨hle₂, buf, hf, hg⟩ | ⟨hle₂, -⟩
    · rw [hopen] at hf hg
      rw [hf]
      have hbl : buf.length = maxlen := hg.length.trans hs₁.length
      generalize hn : s.curLen + missing 4096 s.curLen = n at *
      unfold Res.bind
      dsimp only at hle₂ ⊢
      rw [sub_eq (by omega) (by omega), load_eq_some.mpr ⟨by omega, rfl⟩]
      dsimp only
      obtain ⟨m₁, m₂, image, hm₁, hm₂, him, hil, h0, h4', h8, hrest⟩ := image_fields (m := buf) (n := n)
        (crc32buf (slice buf 12 (n - 12))) (UInt32.ofNat n) (by omega) (by omega)
      rw [hm₁]
      dsimp only
      rw [hm₂]
      dsimp only
      rw [him]
      dsimp only
      cases fwrite with
      | false => exact Or.inl ⟨rfl, Or.inr rfl⟩
      | true =>
        have hdrop : image.drop 12 = slice buf 12 (n - 12) := by
          rw [← hrest 12 (n - 12) (Nat.le_refl _) (by omega)]
          unfold slice
          exact (List.take_of_length_le (by rw [List.length_drop, hil])).symm
        have hmagic : slice image 0 4 = put32 false trxMagic := by
          rw [h0]
          exact (hg.slice 0 4 (by dsimp only; omega)).trans hs₁.magic
        refine Or.inr ⟨image, rfl, check_of_fields (by omega) (by omega) hmagic (hil ▸ h4') (hdrop ▸ h8), ?_,
          by rw [hil]; exact Nat.dvd_of_mod_eq_zero hmod, by omega, fun off k hoff hk => ?_⟩
        · rw [load32_slice (by omega), hrest 12 4 (Nat.le_refl _) (by omega)]
          refine congrArg some ?_
          have hv : slice buf 12 4 = put32 false 0x10000 :=
            (hg.slice 12 4 (by dsimp only; omega)).trans hflag
          rw [hv, get32_put32]
        · rw [hrest off k (by omega) (by omega)]
          refine (hg.slice off k hk).trans ?_
          exact slice_poke_after s.buf 12 off k _ (by omega) (by omega)
    · exact absurd hle₂ (by dsimp only; omega)

end Trx
