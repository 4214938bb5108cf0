import Mathlib.Data.List.TakeDrop
import Firmware.Lib.Run
import Firmware.Oseama.Seama

/-!
# oseama extract: what is reported

`oseama extract` by positions in the file, on any host and with an output that can fail.

* `Host`                   `size_t`, and where `fseek` leads to;
* `Sink`                   the output file: what `fwrite` takes, and what `fclose` leaves;
* `extractTo`              `oseama_extract`, by turns of the walk over the entities;
* `IsEntity`               the entity with an index, by the sizes in the headers before it;
* `extract_reported_iff`   success means a complete entity where there is one that the output takes.
-/

set_option linter.unusedVariables false

namespace Oseama
open Img Word Machine

structure Host where
  size : Nat → Nat
  /-- the position behind `fseek(f, n, SEEK_CUR)` -/
  seek : Nat → Nat → Nat

/-- a 64-bit host -/
def lp64 : Host := ⟨size, fun pos n => pos + n⟩

/-- lengths of entities and positions up to `n` are not cut off -/
structure Host.Fits (h : Host) (n : Nat) : Prop where
  size : ∀ k, k < 8589934592 → k ≤ n → h.size k = k
  seek : ∀ pos k, pos + k ≤ n → h.seek pos k = pos + k

theorem lp64_fits (n : Nat) : lp64.Fits n :=
  ⟨fun k hk _ => Nat.mod_eq_of_lt (Nat.lt_trans hk (by decide)), fun _ _ _ => rfl⟩

/-- `fwrite w n`: how many of `n` bytes are taken behind `w` bytes; `fclose w`: how many of them are
in the file in the end -/
structure Sink where
  fwrite : Nat → Nat → Nat
  fclose : Nat → Nat
  fwrite_le : ∀ w n, fwrite w n ≤ n

/-- an output without errors -/
def Sink.whole : Sink := ⟨fun _ n => n, fun w => w, fun _ _ => Nat.le_refl _⟩

def Sink.closed (sink : Sink) (l : List UInt8) : List UInt8 := l.take (sink.fclose l.length)

/-! ## the code -/

/-- the loop of `fread` and `fwrite`: what is left of `length`, and what was written -/
def copy (sink : Sink) (file : List UInt8) : Nat → Nat → Nat → List UInt8 → Nat × List UInt8
  | 0, _, length, out => (length, out)
  | fuel + 1, pos, length, out =>
    let buf := slice file pos (min 1024 length)
    if buf.length = 0 then (length, out)
    else if sink.fwrite out.length buf.length ≠ buf.length then
      (length, out ++ buf.take (sink.fwrite out.length buf.length))
    else copy sink file fuel (pos + buf.length) (length - buf.length) (out ++ buf)

/-- a turn of `oseama_extract_entity`, at entity `i` and a position: its return value and what was
written -/
def extractStep (h : Host) (sink : Sink) (file : List UInt8) (entityIdx : Int) (s : Int × Nat) :
    (Int × Nat) ⊕ (Int × List UInt8) :=
  let hdr := slice file s.2 entityLen
  if hdr.length ≠ entityLen then .inr (0, [])
  else if get32 true (slice hdr 0 4) ≠ seamaMagic then .inr (-22, [])
  else
    let metasize := (get16 true (slice hdr 6 2)).toNat
    let imagesize := (get32 true (slice hdr 8 4)).toNat
    if s.1 ≠ entityIdx then
      .inl (s.1 + 1, h.seek (s.2 + entityLen) (h.size (metasize + imagesize)))
    else
      let length := h.size (entityLen + metasize + imagesize)
      let r := copy sink file (length + 1) s.2 length []
      .inr (if r.1 ≠ 0 then -5 else 0, r.2)

/-- `oseama_extract` with `-e entityIdx` and `-o`: the return value and the output file; a file that
cannot be opened is `none` -/
def extractTo (h : Host) (sink : Option Sink) (seama : Option (List UInt8)) (entityIdx : Int)
    (fuel : Nat) : Option (Int × List UInt8) :=
  if entityIdx < 0 then some (-22, [])
  else
    match seama, sink with
    | none, _ => some (-13, [])
    | some _, none => some (-13, [])
    | some file, some sink =>
      let hdr := slice file 0 sealLen
      if hdr.length ≠ sealLen then some (-5, sink.closed [])
      else
        let metasize := (get16 true (slice hdr 6 2)).toNat
        -- the return value of `oseama_extract_entity` is not looked at
        (run (extractStep h sink file entityIdx) fuel (0, h.seek sealLen metasize)).map
          fun r => (0, sink.closed r.2)

/-! ## entities -/

def metasizeAt (file : List UInt8) (pos : Nat) : Nat := (get16 true (slice file (pos + 6) 2)).toNat
def imagesizeAt (file : List UInt8) (pos : Nat) : Nat := (get32 true (slice file (pos + 8) 4)).toNat

/-- the length of the entity at `pos` -/
def lengthAt (file : List UInt8) (pos : Nat) : Nat := entityLen + metasizeAt file pos + imagesizeAt file pos

theorem lengthAt_lt (file : List UInt8) (pos : Nat) : lengthAt file pos < 8589934592 := by
  have hm := UInt16.toNat_lt (get16 true (slice file (pos + 6) 2))
  have hi := UInt32.toNat_lt (get32 true (slice file (pos + 8) 4))
  unfold lengthAt metasizeAt imagesizeAt entityLen
  omega

/-- there is a header at `pos` -/
def Header (file : List UInt8) (pos : Nat) : Prop :=
  pos + entityLen ≤ file.length ∧ get32 true (slice file pos 4) = seamaMagic

/-- the entity `k` starts at a position -/
inductive At (file : List UInt8) : Nat → Nat → Prop
  | zero : At file 0 (sealLen + metasizeAt file 0)
  | succ {k pos : Nat} (h : At file k pos) (hh : Header file pos) : At file (k + 1) (pos + lengthAt file pos)

/-- the entity `k` is complete -/
def IsEntity (file : List UInt8) (k : Nat) (bytes : List UInt8) : Prop :=
  ∃ pos, At file k pos ∧ Header file pos ∧ pos + lengthAt file pos ≤ file.length ∧
    bytes = slice file pos (lengthAt file pos)

/-- the output takes the pieces of `n` bytes, from the piece `j` on -/
def Sink.TakesFrom (sink : Sink) (n j : Nat) : Prop :=
  ∀ i, j ≤ i → 1024 * i < n →
    sink.fwrite (1024 * i) (min 1024 (n - 1024 * i)) = min 1024 (n - 1024 * i)

/-- the output takes `n` bytes in pieces, and keeps them -/
def Sink.Takes (sink : Sink) (n : Nat) : Prop := sink.TakesFrom n 0 ∧ n ≤ sink.fclose n

section
variable {h : Host} {sink : Sink} {file : List UInt8} {entityIdx : Int}

/-- the fields of a header of `n` bytes -/
theorem hdr_sizes (file : List UInt8) (pos : Nat) {n : Nat} (hn : 12 ≤ n) :
    slice (slice file pos n) 0 4 = slice file pos 4 ∧
      (get16 true (slice (slice file pos n) 6 2)).toNat = metasizeAt file pos ∧
      (get32 true (slice (slice file pos n) 8 4)).toNat = imagesizeAt file pos := by
  refine ⟨slice_slice file (by omega), ?_, ?_⟩
  · rw [slice_slice file (by omega)]
    rfl
  · rw [slice_slice file (by omega)]
    rfl

/-- a turn at a header -/
theorem extractStep_header {i : Int} {pos : Nat} (hh : Header file pos) :
    extractStep h sink file entityIdx (i, pos) =
      if i ≠ entityIdx then
        .inl (i + 1, h.seek (pos + entityLen) (h.size (metasizeAt file pos + imagesizeAt file pos)))
      else
        let r := copy sink file (h.size (lengthAt file pos) + 1) pos (h.size (lengthAt file pos)) []
        .inr (if r.1 ≠ 0 then -5 else 0, r.2) := by
  obtain ⟨h1, h2, h3⟩ := hdr_sizes file pos (show 12 ≤ entityLen by decide)
  unfold extractStep
  dsimp only
  rw [if_neg (by rw [slice_length file pos _ hh.1]; exact fun h => h rfl), h1, h2, h3,
    if_neg (by rw [hh.2]; exact fun h => h rfl)]
  rfl

/-- a turn that goes on has passed a header -/
theorem extractStep_forward {s : Int × Nat} {i : Int} {pos : Nat}
    (hs : extractStep lp64 sink file entityIdx (i, pos) = .inl s) : pos + entityLen ≤ s.2 := by
  unfold extractStep at hs
  dsimp only at hs
  split at hs
  · exact absurd hs (by simp)
  split at hs
  · exact absurd hs (by simp)
  split at hs
  · obtain rfl := Sum.inl.inj hs
    exact Nat.le_add_right _ _
  · exact absurd hs (by simp)

/-- the walk comes to the entity, if its header is in the file -/
theorem leads_at (hf : h.Fits file.length) {k pos : Nat} (ha : At file k pos) (hh : Header file pos)
    {n : Nat} (hk : k ≤ n) :
    Leads (extractStep h sink file n) (0, h.seek sealLen (metasizeAt file 0)) ((k : Int), pos) := by
  induction ha with
  | zero =>
    have hle := hh.1
    rw [hf.seek sealLen _ (by omega)]
    exact Leads.refl _
  | @succ k pos ha hh' ih =>
    have hle := hh.1
    have hlt := lengthAt_lt file pos
    unfold lengthAt at hle hlt
    have hstep : extractStep h sink file n ((k : Int), pos)
        = .inl (((k + 1 : Nat) : Int), pos + lengthAt file pos) := by
      rw [extractStep_header hh', if_pos (by omega), hf.size _ (by omega) (by omega), hf.seek _ _ (by omega)]
      unfold lengthAt
      rw [Nat.add_assoc, Nat.add_assoc]
      rfl
    exact (ih hh' (by omega)).trans (Leads.one hstep)

theorem copy_zero (fuel pos : Nat) (out : List UInt8) : copy sink file fuel pos 0 out = (0, out) := by
  cases fuel with
  | zero => rfl
  | succ fuel =>
    unfold copy
    dsimp only
    rw [Nat.min_zero, if_pos (by unfold slice; rw [List.take_zero]; rfl)]

/-- a turn of the copy where the file goes on -/
theorem copy_succ {fuel pos length : Nat} {out : List UInt8} (hl : 0 < length)
    (hle : pos + min 1024 length ≤ file.length) :
    copy sink file (fuel + 1) pos length out =
      if sink.fwrite out.length (min 1024 length) ≠ min 1024 length then
        (length, out ++ (slice file pos (min 1024 length)).take (sink.fwrite out.length (min 1024 length)))
      else copy sink file fuel (pos + min 1024 length) (length - min 1024 length)
        (out ++ slice file pos (min 1024 length)) := by
  have hb : (slice file pos (min 1024 length)).length = min 1024 length := slice_length file pos _ hle
  conv_lhs => unfold copy
  dsimp only
  rw [hb, if_neg (by omega)]

/-- **The copy** of `n` bytes is complete exactly if every piece is taken. -/
theorem copy_spec (sink : Sink) (file : List UInt8) (n fuel : Nat) :
    ∀ (j pos : Nat) (out : List UInt8), out.length = 1024 * j →
    n - 1024 * j < fuel → pos + (n - 1024 * j) ≤ file.length →
    (sink.TakesFrom n j ∧
      copy sink file fuel pos (n - 1024 * j) out = (0, out ++ slice file pos (n - 1024 * j))) ∨
    (¬sink.TakesFrom n j ∧
      (copy sink file fuel pos (n - 1024 * j) out).2.length < out.length + (n - 1024 * j)) := by
  induction fuel with
  | zero => exact fun j pos out _ hf => absurd hf (Nat.not_lt_zero _)
  | succ fuel ih =>
    intro j pos out ho hf hle
    rcases Nat.eq_zero_or_pos (n - 1024 * j) with hz | hpos
    · refine Or.inl ⟨fun i hi hn => absurd hn (by omega), ?_⟩
      rw [hz, copy_zero]
      unfold slice
      rw [List.take_zero, List.append_nil]
    have hmin : pos + min 1024 (n - 1024 * j) ≤ file.length := by omega
    rw [copy_succ hpos hmin, ho]
    by_cases hw : sink.fwrite (1024 * j) (min 1024 (n - 1024 * j)) = min 1024 (n - 1024 * j)
    · rw [if_neg (not_not.mpr hw)]
      have hfrom : sink.TakesFrom n j ↔ sink.TakesFrom n (j + 1) := by
        constructor
        · exact fun h i hi => h i (by omega)
        · intro h i hi hn
          by_cases hij : i = j
          · rw [hij]
            exact hw
          · exact h i (by omega) hn
      rw [hfrom]
      by_cases hlast : n - 1024 * j ≤ 1024
      · refine Or.inl ⟨fun i hi hn => absurd hn (by omega), ?_⟩
        rw [Nat.min_eq_right hlast, Nat.sub_self, copy_zero]
      · have hb : min 1024 (n - 1024 * j) = 1024 := by omega
        have hsub : n - 1024 * j - 1024 = n - 1024 * (j + 1) := by omega
        have hlen : (out ++ slice file pos 1024).length = 1024 * (j + 1) := by
          rw [List.length_append, slice_length file pos _ (by omega), ho]
          omega
        rw [hb, hsub]
        have h := ih (j + 1) (pos + 1024) _ hlen (by omega) (by omega)
        rw [hlen] at h
        rcases h with ⟨h1, h2⟩ | ⟨h1, h2⟩
        · refine Or.inl ⟨h1, ?_⟩
          rw [h2, List.append_assoc, ← slice_add file pos 1024, ← hsub, Nat.add_sub_cancel' (by omega)]
        · exact Or.inr ⟨h1, by omega⟩
    · rw [if_pos hw]
      refine Or.inr ⟨fun h => hw (h j (Nat.le_refl _) (by omega)), ?_⟩
      have hlt := lt_of_le_of_ne (sink.fwrite_le (1024 * j) (min 1024 (n - 1024 * j))) hw
      dsimp only
      rw [List.length_append, List.length_take, slice_length file pos _ hmin, ho]
      omega

/-- **The walk** to a complete entity: it is written whole exactly if its pieces are taken. -/
theorem walk_ends (sink : Sink) (hf : h.Fits file.length) {k : Nat} {e : List UInt8} (he : IsEntity file k e) :
    ∃ r, Ends (extractStep h sink file k) (0, h.seek sealLen (metasizeAt file 0)) r ∧
      (sink.TakesFrom e.length 0 ∧ r.2 = e ∨ ¬sink.TakesFrom e.length 0 ∧ r.2.length < e.length) := by
  obtain ⟨pos, ha, hh, hle, rfl⟩ := he
  rw [slice_length file pos _ hle]
  have hstep : extractStep h sink file k ((k : Int), pos) = _ := extractStep_header hh
  rw [if_neg (not_not.mpr rfl), hf.size _ (lengthAt_lt file pos) (by omega)] at hstep
  refine ⟨_, (leads_at hf ha hh (Nat.le_refl k)).ends_iff.mpr (Ends.done hstep), ?_⟩
  have hc := copy_spec sink file (lengthAt file pos) (lengthAt file pos + 1) 0 pos []
    rfl (by omega) hle
  rw [Nat.mul_zero, Nat.sub_zero, List.nil_append, List.length_nil, Nat.zero_add] at hc
  rcases hc with ⟨ht, hc⟩ | ⟨ht, hc⟩
  · exact Or.inl ⟨ht, by rw [hc]⟩
  · exact Or.inr ⟨ht, hc⟩

theorem closed_eq_self {l : List UInt8} : sink.closed l = l ↔ l.length ≤ sink.fclose l.length := by
  unfold Sink.closed
  exact List.take_eq_self_iff l

theorem closed_length_le (sink : Sink) (l : List UInt8) : (sink.closed l).length ≤ l.length := by
  unfold Sink.closed
  exact List.length_take_le' _ _

/-- a call that comes to the walk -/
theorem extractTo_walk (hidx : 0 ≤ entityIdx) (hlen : sealLen ≤ file.length) (fuel : Nat) :
    extractTo h (some sink) (some file) entityIdx fuel =
      (run (extractStep h sink file entityIdx) fuel (0, h.seek sealLen (metasizeAt file 0))).map
        fun r => (0, sink.closed r.2) := by
  unfold extractTo
  dsimp only
  rw [if_neg (by omega), if_neg (by rw [slice_length file 0 _ (by omega)]; exact fun h => h rfl),
    slice_slice file (by decide)]
  rfl

end

/-! ## what is reported -/

/-- `oseama_extract` returns, and 0 only where the entity with the index is complete and the output
file is the entity -/
def Reported (h : Host) (sink : Option Sink) (seama : Option (List UInt8)) (entityIdx : Int) : Prop :=
  ∃ fuel r out, extractTo h sink seama entityIdx fuel = some (r, out) ∧
    (r = 0 → ∃ k file e, entityIdx = Int.ofNat k ∧ seama = some file ∧ IsEntity file k e ∧ out = e)

/-- `oseama_extract` fails before it comes to the entities -/
def Refused (sink : Option Sink) (seama : Option (List UInt8)) (entityIdx : Int) : Prop :=
  entityIdx < 0 ∨ sink = none ∨ ∀ file, seama = some file → file.length < sealLen

/-- there is a complete entity with the index, and the output takes it -/
def Delivered (sink : Option Sink) (seama : Option (List UInt8)) (entityIdx : Int) : Prop :=
  ∃ k file dst e, entityIdx = Int.ofNat k ∧ seama = some file ∧ sink = some dst ∧ IsEntity file k e ∧
    dst.Takes e.length

theorem refused_ne_zero {h : Host} {sink : Option Sink} {seama : Option (List UInt8)} {entityIdx : Int}
    (hr : Refused sink seama entityIdx) :
    ∃ r out, extractTo h sink seama entityIdx 0 = some (r, out) ∧ r ≠ 0 := by
  unfold extractTo
  by_cases hidx : entityIdx < 0
  · rw [if_pos hidx]
    exact ⟨-22, [], rfl, by decide⟩
  rw [if_neg hidx]
  cases seama with
  | none => exact ⟨-13, [], rfl, by decide⟩
  | some file =>
    cases sink with
    | none => exact ⟨-13, [], rfl, by decide⟩
    | some sink =>
      rcases hr with hr | hr | hr
      · exact absurd hr hidx
      · exact absurd hr (by simp)
      · dsimp only
        have hlt := hr file rfl
        rw [if_pos (by unfold slice; rw [List.length_take, List.length_drop]; omega)]
        exact ⟨-5, _, rfl, by decide⟩

/-- **What success means**: it is true exactly where the call is refused, or the entity is complete
and the output takes it. -/
theorem extract_reported_iff (h : Host) (sink : Option Sink) (seama : Option (List UInt8)) (entityIdx : Int)
    (hf : ∀ file, seama = some file → h.Fits file.length) :
    Reported h sink seama entityIdx ↔
      Refused sink seama entityIdx ∨ Delivered sink seama entityIdx := by
  by_cases hr : Refused sink seama entityIdx
  · obtain ⟨r, out, he, hne⟩ := refused_ne_zero (h := h) hr
    exact iff_of_true ⟨0, r, out, he, fun h0 => absurd h0 hne⟩ (Or.inl hr)
  unfold Refused at hr
  push Not at hr
  obtain ⟨hidx, hsink, file, rfl, hlen⟩ := hr
  obtain ⟨sink, rfl⟩ := Option.ne_none_iff_exists'.mp hsink
  have hf := hf file rfl
  constructor
  · rintro ⟨fuel, r, out, hrun, hok⟩
    rw [extractTo_walk hidx hlen] at hrun
    obtain ⟨r', hr', he⟩ := Option.map_eq_some_iff.mp hrun
    obtain ⟨rfl, rfl⟩ := Prod.mk.inj he
    obtain ⟨k, file', e, rfl, hfile, hent, hout⟩ := hok rfl
    obtain rfl := Option.some.inj hfile
    obtain ⟨r'', hends, hcase⟩ := walk_ends sink hf hent
    obtain rfl := hends.unique ⟨fuel, hr'⟩
    refine Or.inr ⟨k, file, sink, e, rfl, rfl, rfl, hent, ?_⟩
    rcases hcase with ⟨ht, hw⟩ | ⟨-, hw⟩
    · rw [hw] at hout
      exact ⟨ht, closed_eq_self.mp hout⟩
    · have hle := closed_length_le sink r''.2
      rw [hout] at hle
      exact absurd hle (by omega)
  · rintro (hr | ⟨k, file', dst, e, rfl, hfile, hdst, hent, ht⟩)
    · rcases hr with hr | hr | hr
      · exact absurd hr (by omega)
      · exact absurd hr (by simp)
      · exact absurd (hr file rfl) (by omega)
    · obtain rfl := Option.some.inj hfile
      obtain rfl := Option.some.inj hdst
      obtain ⟨r, ⟨fuel, hrun⟩, hcase⟩ := walk_ends sink hf hent
      refine ⟨fuel, 0, sink.closed r.2, ?_, fun _ => ⟨k, file, e, rfl, rfl, hent, ?_⟩⟩
      · rw [extractTo_walk hidx hlen]
        exact congrArg (Option.map fun r => ((0 : Int), sink.closed r.2)) hrun
      · rcases hcase with ⟨-, hw⟩ | ⟨hn, -⟩
        · rw [hw]
          exact closed_eq_self.mpr ht.2
        · exact absurd ht.1 hn

/-- a seal without meta data, an entity without meta data, and a byte of data -/
def oneEntity : List UInt8 :=
  put32 true seamaMagic ++ zeros 8 ++ (put32 true seamaMagic ++ zeros 7 ++ [1] ++ zeros 16 ++ [7])

theorem delivered_oneEntity : Delivered (some Sink.whole) (some oneEntity) 0 :=
  ⟨0, oneEntity, Sink.whole, _, rfl, rfl, rfl,
    ⟨_, At.zero, ⟨by decide, by decide⟩, by decide, rfl⟩, fun _ _ _ => rfl, Nat.le_refl _⟩

theorem reported_oneEntity : Reported lp64 (some Sink.whole) (some oneEntity) 0 :=
  (extract_reported_iff lp64 (some Sink.whole) (some oneEntity) 0
    fun file _ => lp64_fits file.length).mpr (Or.inr delivered_oneEntity)

/-- a seal without entities -/
def emptySeal : List UInt8 := put32 true seamaMagic ++ zeros 8

theorem emptySeal_unreported :
    extractTo lp64 (some Sink.whole) (some emptySeal) 0 1 = some (0, []) ∧
      ¬Reported lp64 (some Sink.whole) (some emptySeal) 0 := by
  refine ⟨by decide, ?_⟩
  rintro ⟨fuel, r, out, hrun, hok⟩
  rw [extractTo_walk (Int.le_refl 0) (by decide)] at hrun
  obtain ⟨r', -, he⟩ := Option.map_eq_some_iff.mp hrun
  obtain ⟨k, file, e, -, hfile, ⟨pos, -, hh, -⟩, -⟩ := hok (Prod.mk.inj he).1.symm
  obtain rfl := Option.some.inj hfile
  have hle : pos + entityLen ≤ sealLen := hh.1
  unfold entityLen sealLen at hle
  omega

/-! ## a 64-bit host with an output without errors -/

section
variable {file : List UInt8} {entityIdx : Int}

theorem closed_whole (l : List UInt8) : Sink.whole.closed l = l := closed_eq_self.mpr (Nat.le_refl l.length)

theorem copy_whole (fuel : Nat) : ∀ (pos length : Nat) (out : List UInt8),
    copy Sink.whole file fuel pos length out = Fread.loop 1024 (· ++ ·) fuel (file.drop pos) length out := by
  induction fuel with
  | zero => exact fun _ _ _ => rfl
  | succ fuel ih =>
    intro pos length out
    unfold copy Fread.loop Sink.whole
    dsimp only
    rw [if_neg (not_not.mpr rfl), List.drop_drop]
    exact if_congr Iff.rfl rfl (ih _ _ _)

/-- a turn of the walk, as `extractEntity` takes it -/
theorem extractEntity_turn (fuel : Nat) (i : Int) (pos : Nat) :
    extractEntity entityIdx (fuel + 1) i (file.drop pos) =
      match extractStep lp64 Sink.whole file entityIdx (i, pos) with
      | .inl s => extractEntity entityIdx fuel s.1 (file.drop s.2)
      | .inr r => r := by
  conv_lhs => unfold extractEntity
  unfold extractStep
  dsimp only
  rw [show (file.drop pos).take entityLen = slice file pos entityLen from rfl]
  by_cases hlen : (slice file pos entityLen).length ≠ entityLen
  · rw [if_pos hlen, if_pos hlen]
  rw [if_neg hlen, if_neg hlen]
  by_cases hmagic : get32 true (slice (slice file pos entityLen) 0 4) ≠ seamaMagic
  · rw [if_pos hmagic, if_pos hmagic]
  rw [if_neg hmagic, if_neg hmagic, (hdr_sizes file pos (by decide)).2.1, (hdr_sizes file pos (by decide)).2.2]
  have hlt := lengthAt_lt file pos
  unfold lengthAt at hlt
  by_cases hk : i ≠ entityIdx
  · rw [if_pos hk, if_pos hk, List.drop_drop, (lp64_fits _).size _ (by omega) (Nat.le_refl _)]
    dsimp only [lp64]
    rw [Nat.add_assoc]
  · rw [if_neg hk, if_neg hk, (lp64_fits _).size _ hlt (Nat.le_refl _), copy_whole]
    generalize Fread.loop 1024 (· ++ ·) (entityLen + metasizeAt file pos + imagesizeAt file pos + 1) (file.drop pos)
      (entityLen + metasizeAt file pos + imagesizeAt file pos) [] = r
    obtain ⟨left, out⟩ := r
    dsimp only
    by_cases h0 : left ≠ 0
    · rw [if_pos h0, if_pos h0]
    · rw [if_neg h0, if_neg h0]

theorem run_walk (fuel : Nat) : ∀ (i : Int) (pos : Nat), file.length < pos + entityLen * (fuel + 1) →
    run (extractStep lp64 Sink.whole file entityIdx) (fuel + 1) (i, pos) =
      some (extractEntity entityIdx (fuel + 1) i (file.drop pos)) := by
  induction fuel with
  | zero =>
    intro i pos hlt
    have hs : (slice file pos entityLen).length ≠ entityLen := by
      unfold slice entityLen at *
      rw [List.length_take, List.length_drop]
      omega
    rw [extractEntity_turn]
    unfold run extractStep
    dsimp only
    rw [if_pos hs]
  | succ fuel ih =>
    intro i pos hlt
    rw [extractEntity_turn]
    unfold run
    cases hs : extractStep lp64 Sink.whole file entityIdx (i, pos) with
    | inr r => rfl
    | inl s =>
      refine ih s.1 s.2 ?_
      have hpos : pos + entityLen ≤ s.2 := extractStep_forward hs
      rw [Nat.mul_succ] at hlt
      omega

/-- the walk by positions gives what `extract` gives -/
theorem extractTo_lp64 :
    extractTo lp64 (some Sink.whole) (some file) entityIdx (file.length + 1) =
      some ((extract file entityIdx).1, (extract file entityIdx).2.getD []) := by
  unfold extractTo extract
  dsimp only
  by_cases hidx : entityIdx < 0
  · rw [if_pos hidx, if_pos hidx]
    rfl
  rw [if_neg hidx, if_neg hidx]
  change (if (slice file 0 sealLen).length ≠ sealLen then _ else _) = some
    ((if (slice file 0 sealLen).length ≠ sealLen then _ else _ : Int × Option (List UInt8)).1,
      (if (slice file 0 sealLen).length ≠ sealLen then _ else _ : Int × Option (List UInt8)).2.getD _)
  by_cases hlen : (slice file 0 sealLen).length ≠ sealLen
  · rw [if_pos hlen, if_pos hlen]
    rfl
  rw [if_neg hlen, if_neg hlen, run_walk file.length 0 _ (by unfold entityLen; omega), Option.map_some, closed_whole]
  rfl

end

end Oseama
