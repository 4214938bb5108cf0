import Firmware.Trx.Buffer

/-!
# trx: the files in the images

Every `-f` leaves the start of its file in a slot, and the header has room for three.

* `Kept`            every file is where its slot says; `Broken` one of them is not, for good;
* `run_files`       the files of a run are kept exactly if every slot spares them;
* `trx_spec`        what the tool makes of every sequence of options;
* `three_files`     with three files at most no slot is in a file; `three_files_good` the image;
* `fourth_file`     the fourth file spoils the first.
-/

set_option linter.unusedVariables false

namespace Trx
open Img Word

variable {h : Host} {s t : St}

/-! ## the files -/

/-- the content of the files of `-f` -/
def contents : List Opt → List (List UInt8)
  | [] => []
  | .f (some content) :: os => content :: contents os
  | _ :: os => contents os

/-- the slot of the file is in front of the fill position -/
def Recorded (s : St) : Opt → Prop
  | .f _ => slot s.i + 4 ≤ s.curLen
  | _ => True

/-- the slot of the option leaves the files that are there as they are -/
def Spares (s : St) (files : List (Nat × List UInt8)) (o : Opt) : Prop :=
  ∀ p ∈ files, slice (s.mark o).buf p.1 p.2.length = p.2

/-- every slot of a run spares the files in front of it -/
def Sparing (h : Host) : St → List (Nat × List UInt8) → List Opt → Prop
  | _, _, [] => True
  | s, files, o :: os =>
    Spares s files o ∧ ∀ t, step h s o = .ok t → Sparing h t (files ++ places s o) os

/-- the slot `j` says where the file is -/
structure At (s : St) (j : Nat) (p : Nat × List UInt8) : Prop where
  recorded : slot j + 4 ≤ s.curLen
  slot : slice s.buf (slot j) 4 = put32 false (UInt32.ofNat p.1)
  le : 28 ≤ p.1
  fits : p.1 + p.2.length ≤ s.curLen

/-- every file is where its slot says -/
structure Kept (s : St) (files : List (Nat × List UInt8)) : Prop where
  i : s.i = files.length
  at_slot : ∀ j p, files[j]? = some p → At s j p
  content : ∀ p ∈ files, slice s.buf p.1 p.2.length = p.2

/-- a file has another byte in a slot of a later file -/
structure Broken (s : St) (files : List (Nat × List UInt8)) : Prop where
  i : s.i = files.length
  at_slot : ∃ j p k, files[j]? = some p ∧ At s j p ∧ p.1 ≤ k ∧ k < p.1 + p.2.length ∧ k < slot s.i ∧
    s.buf[k]? ≠ p.2[k - p.1]?

section
variable {o : Opt} {files : List (Nat × List UInt8)} {j off n k : Nat} {p : Nat × List UInt8}

theorem mark_curLen (s : St) (o : Opt) : (s.mark o).curLen = s.curLen := by
  cases o <;> rfl

theorem mark_i (s : St) (o : Opt) : s.mark o = s ∨ (s.mark o).i = s.i + 1 := by
  cases o with
  | f content => exact Or.inr rfl
  | A content => exact Or.inl rfl
  | a n => exact Or.inl rfl
  | b n => exact Or.inl rfl

theorem slice_getElem? (m : List UInt8) (off n k : Nat) :
    (slice m off n)[k]? = if k < n then m[off + k]? else none := by
  unfold slice
  rw [List.getElem?_take]
  split
  · exact List.getElem?_drop
  · rfl

theorem Grown.getElem? (hg : Grown s t) (hk : k < s.curLen) : t.buf[k]? = s.buf[k]? := by
  have h := congrArg (fun l : List UInt8 => l[0]?) (hg.slice k 1 hk)
  simpa [slice_getElem?] using h

/-- bytes outside the slot -/
theorem mark_getElem? (hs : Inv s) (hfit : Fits s o) (hk : k < slot s.i ∨ slot s.i + 4 ≤ k) :
    (s.mark o).buf[k]? = s.buf[k]? := by
  have hl := hs.length
  have h4 : (put32 false (UInt32.ofNat s.curLen)).length = 4 := put32_length false _
  cases o with
  | f content => exact poke_getElem? _ _ _ _ (by unfold Fits at hfit; omega) (by omega)
  | A content => rfl
  | a n => rfl
  | b n => rfl

/-- what an option leaves as it is -/
theorem Stepped.at_slot (hs : Inv s) (hst : Stepped s o t) (hfit : Fits s o) (hj : j < s.i) (ha : At s j p) :
    At t j p := by
  have hle := hst.grown.le
  have hr := ha.recorded
  have hf := ha.fits
  rw [mark_curLen] at hle
  refine ⟨Nat.le_trans hr hle, ?_, ha.le, Nat.le_trans hf hle⟩
  rw [hst.grown.slice _ _ (by rw [mark_curLen]; exact hr), ← ha.slot]
  apply List.ext_getElem?
  intro k
  rw [slice_getElem?, slice_getElem?]
  split
  · exact mark_getElem? hs hfit (Or.inl (by unfold Trx.slot; omega))
  · rfl

/-- the slot of a new file -/
theorem Stepped.at_new (hs : Inv s) (hst : Stepped s o t) (hfit : Fits s o) (hr : Recorded s o)
    (hp : p ∈ places s o) : At t s.i p := by
  have hle := hst.grown.le
  have hgrown := hst.grown.slice (slot s.i) 4
  have hfits := (hst.placed p hp).1
  rw [mark_curLen] at hle hgrown
  cases o with
  | f content =>
    cases content with
    | none => exact absurd hp (by simp [places])
    | some c =>
      obtain rfl := List.mem_singleton.mp hp
      have hl := hs.length
      have h4 : (put32 false (UInt32.ofNat s.curLen)).length = 4 := put32_length false _
      have hself := slice_poke_self s.buf (slot s.i) (put32 false (UInt32.ofNat s.curLen))
        (by unfold Fits at hfit; omega)
      rw [h4] at hself
      exact ⟨Nat.le_trans hr hle, (hgrown hr).trans hself, hs.le, hfits⟩
  | A content => exact absurd hp List.not_mem_nil
  | a n => exact absurd hp List.not_mem_nil
  | b n => exact absurd hp List.not_mem_nil

theorem places_length_le (s : St) (o : Opt) : (places s o).length ≤ 1 := by
  unfold places
  split
  · exact Nat.le_refl 1
  · exact Nat.zero_le 1

/-- **The files stay** where they are, if the slot spares them. -/
theorem Kept.step (hk : Kept s files) (hs : Inv s) (hst : Stepped s o t) (hfit : Fits s o) (hr : Recorded s o)
    (hspare : Spares s files o) : Kept t (files ++ places s o) := by
  refine ⟨?_, fun j p hj => ?_, fun p hp => ?_⟩
  · rw [hst.i, hk.i, List.length_append]
  · by_cases hlt : j < files.length
    · rw [List.getElem?_append_left hlt] at hj
      exact hst.at_slot hs hfit (by rw [hk.i]; exact hlt) (hk.at_slot j p hj)
    · have hlen := (List.getElem?_eq_some_iff.mp hj).1
      have hone := places_length_le s o
      rw [List.length_append] at hlen
      rw [List.getElem?_append_right (by omega)] at hj
      have hnew := hst.at_new hs hfit hr (List.mem_of_getElem? hj)
      rwa [hk.i, show files.length = j by omega] at hnew
  · rcases List.mem_append.mp hp with hp | hp
    · obtain ⟨j, hj⟩ := List.getElem?_of_mem hp
      rw [hst.grown.slice _ _ (by rw [mark_curLen]; exact (hk.at_slot j p hj).fits)]
      exact hspare p hp
    · exact (hst.placed p hp).2

/-- a file that its slot does not spare has another byte there -/
theorem Kept.breaks (hk : Kept s files) (hs : Inv s) (hst : Stepped s o t) (hfit : Fits s o)
    (hspare : ¬Spares s files o) : Broken t (files ++ places s o) := by
  refine ⟨by rw [hst.i, hk.i, List.length_append], ?_⟩
  unfold Spares at hspare
  push Not at hspare
  obtain ⟨p, hp, hne⟩ := hspare
  obtain ⟨j, hj⟩ := List.getElem?_of_mem hp
  have hat := hk.at_slot j p hj
  have hjlt := (List.getElem?_eq_some_iff.mp hj).1
  obtain ⟨n, hn⟩ : ∃ n, (slice (s.mark o).buf p.1 p.2.length)[n]? ≠ p.2[n]? := by
    by_contra hall
    push Not at hall
    exact hne (List.ext_getElem? hall)
  have hlt : n < p.2.length := by
    by_contra hge
    rw [slice_getElem?, if_neg hge, List.getElem?_eq_none (by omega)] at hn
    exact hn rfl
  rw [slice_getElem?, if_pos hlt] at hn
  have hold : s.buf[p.1 + n]? = p.2[n]? := by
    have hc : (slice s.buf p.1 p.2.length)[n]? = p.2[n]? := by rw [hk.content p hp]
    rwa [slice_getElem?, if_pos hlt] at hc
  have hfits := hat.fits
  refine ⟨j, p, p.1 + n, by rw [List.getElem?_append_left hjlt, hj],
    hst.at_slot hs hfit (by rw [hk.i]; exact hjlt) hat,
    Nat.le_add_right _ _, Nat.add_lt_add_left hlt _, ?_, ?_⟩
  · -- only the slot has changed
    by_contra hge
    rcases mark_i s o with hm | hm
    · rw [hm] at hn
      exact hn hold
    · have hi := hst.grown.i
      rw [mark_getElem? hs hfit (Or.inr (by unfold slot at hge ⊢; omega))] at hn
      exact hn hold
  · rw [hst.grown.getElem? (by rw [mark_curLen]; omega), Nat.add_sub_cancel_left]
    exact hn

/-- **A broken file** stays broken. -/
theorem Broken.step (hb : Broken s files) (hs : Inv s) (hst : Stepped s o t) (hfit : Fits s o) :
    Broken t (files ++ places s o) := by
  obtain ⟨hi, j, p, k, hj, hat, hpk, hkp, hk, hne⟩ := hb
  have hjlt := (List.getElem?_eq_some_iff.mp hj).1
  have hti := hst.i
  have hfits := hat.fits
  refine ⟨by rw [hti, hi, List.length_append], j, p, k, by rw [List.getElem?_append_left hjlt, hj],
    hst.at_slot hs hfit (by omega) hat, hpk, hkp, by unfold slot at hk ⊢; omega, ?_⟩
  rw [hst.grown.getElem? (by rw [mark_curLen]; omega), mark_getElem? hs hfit (Or.inl hk)]
  exact hne

theorem contents_cons (hst : Stepped s o t) (os : List Opt) :
    contents (o :: os) = (places s o).map Prod.snd ++ contents os := by
  cases o with
  | f content =>
    cases content with
    | none =>
      have h1 : t.i = s.i + 1 := hst.grown.i
      have h2 : t.i = s.i := hst.i
      omega
    | some c => rfl
  | A content => rfl
  | a n => rfl
  | b n => rfl

theorem sparing_cons {os : List Opt} (hst : step h s o = .ok t) :
    Sparing h s files (o :: os) ↔ Spares s files o ∧ Sparing h t (files ++ places s o) os := by
  constructor
  · exact fun hsp => ⟨hsp.1, hsp.2 t hst⟩
  · rintro ⟨hspare, hsp⟩
    refine ⟨hspare, fun u hu => ?_⟩
    rw [hst] at hu
    obtain rfl := Res.ok.inj hu
    exact hsp

/-- **The files of a run** that records them: they are kept exactly if every slot spares them. -/
theorem run_files {os : List Opt} : ∀ {s : St} (files : List (Nat × List UInt8)),
    Inv s → (∀ o ∈ os, Legal h o) →
    Along h Recorded s os → run h s os = .ok t →
    ∃ files', files'.map Prod.snd = files.map Prod.snd ++ contents os ∧
      (Broken s files → Broken t files') ∧
      (Kept s files → (Sparing h s files os ∧ Kept t files') ∨ (¬Sparing h s files os ∧ Broken t files')) := by
  induction os with
  | nil =>
    intro s files _ _ _ hrun
    obtain rfl := Res.ok.inj hrun
    exact ⟨files, (List.append_nil _).symm, id, fun hk => Or.inl ⟨trivial, hk⟩⟩
  | cons o os ih =>
    intro s files hs hl hrec hrun
    rw [run_cons] at hrun
    obtain ⟨u, hu, hrun⟩ := Res.bind_eq_ok.mp hrun
    obtain ⟨hfit, hinv, hst⟩ := step_ok hs (hl o List.mem_cons_self) hu
    obtain ⟨files', hmap, hbroken, hkept⟩ := ih (files ++ places s o) hinv
      (fun o ho => hl o (List.mem_cons_of_mem _ ho)) (hrec.2 u hu) hrun
    refine ⟨files', ?_, fun hb => hbroken (hb.step hs hst hfit), fun hk => ?_⟩
    · rw [hmap, List.map_append, List.append_assoc, contents_cons hst]
    · rw [sparing_cons hu]
      by_cases hspare : Spares s files o
      · rcases hkept (hk.step hs hst hfit hrec.1 hspare) with ⟨h1, h2⟩ | ⟨h1, h2⟩
        · exact Or.inl ⟨⟨hspare, h1⟩, h2⟩
        · exact Or.inr ⟨fun h => h1 h.2, h2⟩
      · exact Or.inr ⟨fun h => hspare h.1, hbroken (hk.breaks hs hst hfit hspare)⟩

theorem Kept.nil (hi : s.i = 0) : Kept s [] :=
  ⟨hi, fun _ _ h => absurd h (by simp), fun _ h => absurd h List.not_mem_nil⟩

/-- the number of the slots -/
def slots : List Opt → Nat
  | [] => 0
  | .f _ :: os => slots os + 1
  | _ :: os => slots os

theorem slots_cons (s : St) (o : Opt) (os : List Opt) : (places s o).length + slots os ≤ slots (o :: os) := by
  cases o with
  | f content =>
    have hone := places_length_le s (.f content)
    show _ ≤ slots os + 1
    omega
  | A content => exact Nat.le_of_eq (Nat.zero_add _)
  | a n => exact Nat.le_of_eq (Nat.zero_add _)
  | b n => exact Nat.le_of_eq (Nat.zero_add _)

/-- the first three slots are in the header -/
theorem header_slot (hs : Inv s) (hk : Kept s files) (o : Opt) (os : List Opt) (h3 : s.i + slots (o :: os) ≤ 3) :
    Recorded s o ∧ Spares s files o := by
  cases o with
  | f content =>
    have hle := hs.le
    have hone : slots (.f content :: os) = slots os + 1 := rfl
    have hslot : slot s.i + 4 ≤ 28 := by
      unfold slot
      omega
    refine ⟨Nat.le_trans hslot hle, fun p hp => ?_⟩
    obtain ⟨j, hj⟩ := List.getElem?_of_mem hp
    have h28 := (hk.at_slot j p hj).le
    have hlen := hs.length
    have hfit := hs.fits
    have h4 : (put32 false (UInt32.ofNat s.curLen)).length = 4 := put32_length false _
    exact (slice_poke_after s.buf (slot s.i) _ _ _ (by omega) (by omega)).trans (hk.content p hp)
  | A content => exact ⟨trivial, hk.content⟩
  | a n => exact ⟨trivial, hk.content⟩
  | b n => exact ⟨trivial, hk.content⟩

/-- **Three files at most**: every slot is in the header, in front of the files. -/
theorem three_files {os : List Opt} : ∀ {s : St} {files : List (Nat × List UInt8)},
    Inv s → (∀ o ∈ os, Legal h o) →
    Kept s files → s.i + slots os ≤ 3 → Along h Recorded s os ∧ Sparing h s files os := by
  induction os with
  | nil => exact fun _ _ _ _ => ⟨trivial, trivial⟩
  | cons o os ih =>
    intro s files hs hl hk h3
    obtain ⟨hrec, hspare⟩ := header_slot hs hk o os h3
    have hnext : ∀ t, step h s o = .ok t →
        Along h Recorded t os ∧ Sparing h t (files ++ places s o) os := by
      intro t ht
      obtain ⟨hfit, hinv, hst⟩ := step_ok hs (hl o List.mem_cons_self) ht
      have hle := slots_cons s o os
      have hi := hst.i
      exact ih hinv (fun o ho => hl o (List.mem_cons_of_mem _ ho)) (hk.step hs hst hfit hrec hspare) (by omega)
    exact ⟨⟨hrec, fun t ht => (hnext t ht).1⟩, hspare, fun t ht => (hnext t ht).2⟩

end

/-! ## the tool -/

/-- what `trx` is for: an image that `otrx check` accepts, of whole blocks and of version 1, with the
files where the header says -/
structure Good (image : List UInt8) (contents : List (List UInt8)) : Prop where
  checked : Otrx.check image = 0
  version : load32 false image 12 = some 0x10000
  blocks : 4096 ∣ image.length
  files : ∀ j c, contents[j]? = some c → ∃ off, load32 false image (slot j) = some off ∧
    slice image off.toNat c.length = c

/-- `trx` fails, or it writes a good image -/
def Upholds (h : Host) (malloc : Option Buf) (fwrite : Bool) (opts : List Opt) : Prop :=
  main h malloc fwrite opts = .failure ∨
    ∃ image, main h malloc fwrite opts = .ok image ∧ Good image (contents opts)

theorem start_inv (buf : Buf) : Inv (start buf) := by
  have hl := buf.length_eq
  have h4 : (put32 false trxMagic).length = 4 := put32_length false _
  have hmax : maxlen = 7471104 := rfl
  have hself := slice_poke_self buf.bytes 0 (put32 false trxMagic) (by omega)
  rw [h4] at hself
  exact ⟨(poke_length _ _ _ (by omega)).trans hl, show 28 % 4 = 0 by decide, Nat.le_refl 28,
    show 28 ≤ maxlen by decide, hself⟩

section
variable {files : List (Nat × List UInt8)} {image : List UInt8}

/-- what an image shows of a file -/
theorem image_at (hs : Inv s) (hlen : s.curLen ≤ image.length)
    (him : ∀ off n, 16 ≤ off → off + n ≤ s.curLen → slice image off n = slice s.buf off n)
    {j : Nat} {p : Nat × List UInt8} (ha : At s j p) :
    load32 false image (slot j) = some (UInt32.ofNat p.1) ∧ (UInt32.ofNat p.1).toNat = p.1 ∧
      slice image p.1 p.2.length = slice s.buf p.1 p.2.length := by
  have hrec := ha.recorded
  have hfits := ha.fits
  have hfit := hs.fits
  have hmax : maxlen = 7471104 := rfl
  have h28 := ha.le
  refine ⟨?_, UInt32.toNat_ofNat_of_lt' (by show p.1 < 4294967296; omega), him _ _ (by omega) hfits⟩
  rw [load32_slice (by omega), him _ _ (by unfold slot; omega) hrec, ha.slot, get32_put32]

theorem Kept.image_files (hk : Kept s files) (hs : Inv s) (hlen : s.curLen ≤ image.length)
    (him : ∀ off n, 16 ≤ off → off + n ≤ s.curLen → slice image off n = slice s.buf off n) :
    ∀ j c, (files.map Prod.snd)[j]? = some c → ∃ off, load32 false image (slot j) = some off ∧
      slice image off.toNat c.length = c := by
  intro j c hj
  rw [List.getElem?_map] at hj
  obtain ⟨p, hp, rfl⟩ := Option.map_eq_some_iff.mp hj
  obtain ⟨hoff, hn, hsl⟩ := image_at hs hlen him (hk.at_slot j p hp)
  refine ⟨_, hoff, ?_⟩
  rw [hn, hsl]
  exact hk.content p (List.mem_of_getElem? hp)

theorem Broken.image_files (hb : Broken s files) (hs : Inv s) (hlen : s.curLen ≤ image.length)
    (him : ∀ off n, 16 ≤ off → off + n ≤ s.curLen → slice image off n = slice s.buf off n) :
    ¬∀ j c, (files.map Prod.snd)[j]? = some c → ∃ off, load32 false image (slot j) = some off ∧
      slice image off.toNat c.length = c := by
  obtain ⟨-, j, p, k, hj, hat, hpk, hkp, -, hne⟩ := hb
  intro hall
  obtain ⟨hoff, hn, hsl⟩ := image_at hs hlen him hat
  obtain ⟨off, ho, hc⟩ := hall j p.2 (by rw [List.getElem?_map, hj]; rfl)
  obtain rfl := Option.some.inj (hoff.symm.trans ho)
  rw [hn, hsl] at hc
  refine hne ?_
  rw [← hc, slice_getElem?, if_pos (by omega), Nat.add_sub_cancel' hpk]

end

/-- every option that the tool comes to is inside the buffer -/
def Fitting (h : Host) (buf : Buf) (opts : List Opt) : Prop := Along h Fits (start buf) opts

/-- every slot that the tool comes to is in front of the fill position -/
def Recording (h : Host) (buf : Buf) (opts : List Opt) : Prop := Along h Recorded (start buf) opts

theorem main_outside (h : Host) (malloc : Option Buf) (fwrite : Bool) {opts : List Opt}
    (hl : ∀ o ∈ opts, Legal h o) :
    main h malloc fwrite opts ≠ .outside ↔ ∀ buf, malloc = some buf → Fitting h buf opts := by
  cases malloc with
  | none => exact iff_of_true (by simp [main]) fun _ h => absurd h (by simp)
  | some buf =>
    unfold main
    dsimp only
    rcases run_spec (start_inv buf) hl with ⟨hno, hr⟩ | ⟨hall, hr⟩
    · rw [hr]
      exact iff_of_false (fun h => h rfl) fun h => hno (h buf rfl)
    · refine iff_of_true ?_ fun _ hb => Option.some.inj hb ▸ hall
      rcases hr with hr | ⟨t, hr, ht⟩
      · rw [hr]
        simp [Res.bind]
      · rw [hr]
        show finish h fwrite t ≠ .outside
        rcases finish_spec (h := h) ht fwrite with ⟨hf, -⟩ | ⟨image, hf, -⟩
        · simp [hf]
        · simp [hf]

/-- **The images** of a run that records its files: they are good exactly if no slot is in a file. -/
theorem main_good {h : Host} {buf : Buf} {fwrite : Bool} {opts : List Opt} (hl : ∀ o ∈ opts, Legal h o)
    (hrec : Recording h buf opts) {image : List UInt8} (hm : main h (some buf) fwrite opts = .ok image) :
    Good image (contents opts) ↔ Sparing h (start buf) [] opts := by
  obtain ⟨t, hr, hm⟩ := Res.bind_eq_ok.mp hm
  have ht := run_ok (start_inv buf) hl hr
  obtain ⟨files, hmap, -, hkept⟩ := run_files [] (start_inv buf) hl hrec hr
  rcases finish_spec (h := h) ht fwrite with ⟨hf, -⟩ | ⟨image', hf, hcheck, hver, hdvd, hlen, him⟩
  · rw [hf] at hm
    exact absurd hm (by simp)
  rw [hf] at hm
  obtain rfl := Res.ok.inj hm
  rw [List.map_nil, List.nil_append] at hmap
  rw [← hmap]
  rcases hkept (Kept.nil rfl) with ⟨hsp, hk⟩ | ⟨hsp, hb⟩
  · exact iff_of_true ⟨hcheck, hver, hdvd, hk.image_files ht hlen him⟩ hsp
  · exact iff_of_false (fun hg => hb.image_files ht hlen him hg.files) hsp

/-- **The tool**, on every sequence of options: it stays inside the buffer exactly if every option
fits; without a buffer it fails; and if every slot is in front of the fill position too, then it
fails or writes a good image exactly if it fails or no slot is in a file. -/
theorem trx_spec (h : Host) (malloc : Option Buf) (fwrite : Bool) (opts : List Opt) (hl : ∀ o ∈ opts, Legal h o) :
    (main h malloc fwrite opts ≠ .outside ↔ ∀ buf, malloc = some buf → Fitting h buf opts) ∧
      (malloc = none → Upholds h malloc fwrite opts) ∧
      ∀ buf, malloc = some buf → Fitting h buf opts → Recording h buf opts →
        (Upholds h malloc fwrite opts ↔
          main h malloc fwrite opts = .failure ∨ Sparing h (start buf) [] opts) := by
  refine ⟨main_outside h malloc fwrite hl, ?_, ?_⟩
  · rintro rfl
    exact Or.inl rfl
  rintro buf rfl hfit hrec
  have hin := (main_outside h (some buf) fwrite hl).mpr fun b hb => Option.some.inj hb ▸ hfit
  unfold Upholds
  cases hm : main h (some buf) fwrite opts with
  | outside => exact absurd hm hin
  | failure => exact iff_of_true (Or.inl rfl) (Or.inl rfl)
  | ok image =>
    have hgood := main_good hl hrec hm
    constructor
    · rintro (hf | ⟨image', him, hg⟩)
      · exact absurd hf (by simp)
      · obtain rfl := Res.ok.inj him
        exact Or.inr (hgood.mp hg)
    · rintro (hf | hsp)
      · exact absurd hf (by simp)
      · exact Or.inr ⟨image, rfl, hgood.mpr hsp⟩

/-! ## files that there is room for -/

/-- `-f` for each of the files -/
def filesOf (cs : List (List UInt8)) : List Opt := cs.map fun c => .f (some c)

theorem legal_filesOf (h : Host) (cs : List (List UInt8)) : ∀ o ∈ filesOf cs, Legal h o := by
  intro o ho
  obtain ⟨c, -, rfl⟩ := List.mem_map.mp ho
  trivial

theorem contents_filesOf (cs : List (List UInt8)) : contents (filesOf cs) = cs := by
  induction cs with
  | nil => rfl
  | cons c cs ih => exact congrArg (c :: ·) ih

theorem slots_filesOf (cs : List (List UInt8)) : slots (filesOf cs) = cs.length := by
  induction cs with
  | nil => rfl
  | cons c cs ih => exact congrArg (· + 1) ih

theorem step_room (hs : Inv s) {c : List UInt8} (hslot : slot s.i + 4 ≤ maxlen)
    (hroom : s.curLen + c.length < maxlen) :
    ∃ t, step h s (.f (some c)) = .ok t ∧ Inv t ∧ t.opened = true ∧ t.i = s.i + 1 ∧
      t.curLen ≤ s.curLen + c.length + 3 := by
  have hr := record_inv hs hslot
  obtain ⟨buf, n, hn, hm, hok, hle, hg, -⟩ := readFile_fits (h := h) hr (c := c) hroom
  have hmod := hs.mod
  refine ⟨_, (step_f _ hs).trans ((if_pos hslot).trans hok), hr.grown hg ?_ hle, rfl, rfl, ?_⟩
  · show (s.curLen + (c.length + n)) % 4 = 0
    omega
  · show s.curLen + (c.length + n) ≤ _
    omega

/-- **Room for all**: the tool reads them all. -/
theorem run_room (cs : List (List UInt8)) : ∀ {s : St}, Inv s → slot (s.i + cs.length) ≤ maxlen →
    s.curLen + cs.flatten.length + 3 * cs.length < maxlen → (s.opened = true ∨ cs ≠ []) →
    ∃ t, run h s (filesOf cs) = .ok t ∧ Inv t ∧ t.opened = true := by
  induction cs with
  | nil =>
    intro s hs _ _ hopen
    exact ⟨s, rfl, hs, hopen.elim id fun hne => absurd rfl hne⟩
  | cons c cs ih =>
    intro s hs hslot hroom _
    unfold slot at hslot
    rw [List.flatten_cons, List.length_append, List.length_cons] at hroom
    rw [List.length_cons] at hslot
    obtain ⟨u, hu, hinv, hopen, hi, hlen⟩ := step_room (h := h) hs (c := c) (by unfold slot; omega) (by omega)
    obtain ⟨t, ht, hres⟩ := ih hinv (by unfold slot; omega) (by omega) (Or.inl hopen)
    refine ⟨t, ?_, hres⟩
    show (step h s (.f (some c))).bind _ = _
    rw [hu]
    exact ht

theorem main_room (h : Host) (buf : Buf) (cs : List (List UInt8)) (hslot : slot cs.length ≤ maxlen)
    (hroom : 28 + cs.flatten.length + 3 * cs.length < maxlen) (hne : cs ≠ []) :
    ∃ image, main h (some buf) true (filesOf cs) = .ok image := by
  obtain ⟨t, hr, ht, hopen⟩ := run_room (h := h) cs (start_inv buf)
    (by rw [show (start buf).i = 0 from rfl, Nat.zero_add]; exact hslot) hroom (Or.inr hne)
  unfold main
  dsimp only
  rw [hr]
  rcases finish_spec (h := h) ht true with ⟨-, hf⟩ | ⟨image, hf, -⟩
  · rw [hopen] at hf
    exact absurd hf (by decide)
  · exact ⟨image, hf⟩

/-- **Up to three files** that there is room for: the tool writes a good image. -/
theorem three_files_good (h : Host) (buf : Buf) {cs : List (List UInt8)} (h3 : cs.length ≤ 3)
    (hroom : 28 + cs.flatten.length + 3 * cs.length < maxlen) (hne : cs ≠ []) :
    ∃ image, main h (some buf) true (filesOf cs) = .ok image ∧ Good image cs := by
  obtain ⟨image, him⟩ := main_room h buf cs (by unfold slot maxlen; omega) hroom hne
  have hslots := slots_filesOf cs
  obtain ⟨hrec, hsp⟩ := three_files (start_inv buf) (legal_filesOf h cs) (Kept.nil rfl)
    (by rw [show (start buf).i = 0 from rfl]; omega)
  have hgood := (main_good (legal_filesOf h cs) hrec him).mpr hsp
  rw [contents_filesOf] at hgood
  exact ⟨image, him, hgood⟩

/-- a step with one of the first three files -/
theorem step_header_file {files : List (Nat × List UInt8)} {c : List UInt8} (hs : Inv s)
    (hk : Kept s files) (hi : s.i ≤ 2) (hroom : s.curLen + c.length < maxlen) :
    ∃ t, step h s (.f (some c)) = .ok t ∧ Recorded s (.f (some c)) ∧ Spares s files (.f (some c)) ∧ Inv t ∧
      Kept t (files ++ [(s.curLen, c)]) ∧ t.i = s.i + 1 ∧ t.curLen ≤ s.curLen + c.length + 3 := by
  obtain ⟨hrec, hspare⟩ := header_slot hs hk (.f (some c)) []
    (by rw [show slots [.f (some c)] = 1 from rfl]; omega)
  obtain ⟨t, ht, hinv, -, hti, hlen⟩ := step_room (h := h) hs (c := c) (by unfold slot maxlen; omega) hroom
  obtain ⟨hfit, -, hst⟩ := step_ok hs (o := .f (some c)) trivial ht
  exact ⟨t, ht, hrec, hspare, hinv, hk.step hs hst hfit hrec hspare, hti, hlen⟩

/-- **The fourth file** writes its offset into the first one. -/
theorem fourth_file (h : Host) (buf : Buf) {c c₁ c₂ c₃ : List UInt8} (h4 : 4 ≤ c.length)
    (hfirst : ∀ n ≤ maxlen, c.take 4 ≠ put32 false (UInt32.ofNat n))
    (hroom : 28 + [c, c₁, c₂, c₃].flatten.length + 3 * 4 < maxlen) :
    ¬Upholds h (some buf) true (filesOf [c, c₁, c₂, c₃]) := by
  have hlens : [c, c₁, c₂, c₃].flatten.length = c.length + (c₁.length + (c₂.length + c₃.length)) := by
    simp only [List.flatten_cons, List.flatten_nil, List.append_nil, List.length_append]
  have hi : (start buf).i = 0 := rfl
  have h28 : (start buf).curLen = 28 := rfl
  obtain ⟨image, him⟩ :=
    main_room h buf [c, c₁, c₂, c₃] (show slot 4 ≤ maxlen by decide) hroom (by simp)
  obtain ⟨t₁, hst, hrec, hsp, hs₁, hk₁, hi₁, hl₁⟩ :=
    step_header_file (h := h) (c := c) (start_inv buf) (Kept.nil rfl) (by omega) (by omega)
  obtain ⟨t₂, hst₁, hrec₁, hsp₁, hs₂, hk₂, hi₂, hl₂⟩ :=
    step_header_file (h := h) (c := c₁) hs₁ hk₁ (by omega) (by omega)
  obtain ⟨t₃, hst₂, hrec₂, hsp₂, hs₃, hk₃, hi₃, -⟩ :=
    step_header_file (h := h) (c := c₂) hs₂ hk₂ (by omega) (by omega)
  have hlen := hs₃.length
  have hmax : maxlen = 7471104 := rfl
  have hfits : 28 + c.length ≤ t₃.curLen := (hk₃.at_slot 0 (28, c) rfl).fits
  have hslot : slot t₃.i = 28 := by
    unfold slot
    omega
  have hrecording : Recording h buf (filesOf [c, c₁, c₂, c₃]) := by
    refine (along_cons hst).mpr ⟨hrec, (along_cons hst₁).mpr ⟨hrec₁, ?_⟩⟩
    refine (along_cons hst₂).mpr ⟨hrec₂, ?_, fun _ _ => trivial⟩
    show slot t₃.i + 4 ≤ t₃.curLen
    omega
  have hbroken : ¬Sparing h (start buf) [] (filesOf [c, c₁, c₂, c₃]) := by
    intro hall
    have hspare := ((sparing_cons hst₂).mp ((sparing_cons hst₁).mp ((sparing_cons hst).mp hall).2).2).2.1
    have hc : slice t₃.record.buf 28 c.length = c := hspare (28, c) List.mem_cons_self
    have hput : (put32 false (UInt32.ofNat t₃.curLen)).length = 4 := put32_length false _
    have hself := slice_poke_self t₃.buf (slot t₃.i) (put32 false (UInt32.ofNat t₃.curLen)) (by omega)
    rw [hput, hslot] at hself
    refine hfirst t₃.curLen hs₃.fits ?_
    rw [← hc, ← hself]
    unfold slice St.record
    rw [List.take_take, Nat.min_eq_left h4, hslot]
  rintro (hf | ⟨image', him', hg⟩)
  · rw [him] at hf
    exact absurd hf (by simp)
  · exact hbroken ((main_good (legal_filesOf h _) hrecording him').mp hg)

def zeroBuf : Buf := ⟨zeros maxlen, zeros_length maxlen⟩

/-- a file, zeros up to a multiple of 1024, two more files, and zeros up to an offset -/
def mixed : List Opt :=
  [.f (some [1, 2, 3]), .a (some 1024), .f (some [4, 5]), .A (some [6]), .b (some 0x10000)]

theorem legal_mixed : ∀ o ∈ mixed, Legal lp64 o := by
  unfold mixed
  simp only [List.forall_mem_cons]
  exact ⟨trivial, ⟨⟨10, rfl⟩, by decide⟩, trivial, trivial, ⟨⟨0x4000, rfl⟩, by decide⟩, List.forall_mem_nil _⟩

theorem upholds_mixed : Upholds lp64 (some zeroBuf) true mixed := by
  have hthree := three_files (start_inv zeroBuf) legal_mixed (Kept.nil rfl) (show 0 + 2 ≤ 3 by decide)
  obtain ⟨t, hst, hinv, -, -, hlen⟩ := step_room (h := lp64) (c := [1, 2, 3]) (start_inv zeroBuf)
    (show slot 0 + 4 ≤ maxlen by decide) (show 28 + 3 < maxlen by decide)
  have hfit : Fitting lp64 zeroBuf mixed := by
    refine (along_cons hst).mpr ⟨show slot 0 + 4 ≤ maxlen by decide, ?_, fun u hu => ⟨?_, fun v hv => ?_⟩⟩
    · have hle : t.curLen ≤ 34 := hlen
      have hmiss : missing 1024 t.curLen ≤ 1024 := by
        unfold missing
        split <;> omega
      show t.curLen + missing 1024 t.curLen ≤ 7471104
      omega
    · -- the second slot is in the header
      have hu' := (step_ok hinv (legal_mixed _ (by simp [mixed])) hu).2.1.fits
      exact Nat.le_trans (((along_cons hst).mp hthree.1).2.2 u hu).1 hu'
    · exact ⟨trivial, fun w hw => ⟨show 0x10000 ≤ maxlen by decide, fun _ _ => trivial⟩⟩
  exact ((trx_spec lp64 (some zeroBuf) true mixed legal_mixed).2.2 zeroBuf rfl hfit hthree.1).mpr
    (Or.inr hthree.2)

/-- an offset behind the buffer, and a file -/
def farOffset : List Opt := [.b (some 0x800000), .f (some [1])]

/-- four small files -/
def fourFiles : List Opt := filesOf [[1, 2, 3, 4], [5], [6], [7]]

theorem fourFiles_lost : ¬Upholds lp64 (some zeroBuf) true fourFiles := by
  refine fourth_file lp64 zeroBuf (by decide) (fun n hn heq => ?_) (by decide)
  have hget := congrArg (get32 false) heq
  rw [get32_put32] at hget
  have hn' : (UInt32.ofNat n).toNat = n := UInt32.toNat_ofNat_of_lt' (Nat.lt_of_le_of_lt hn (by decide))
  have hval : (get32 false [1, 2, 3, 4]).toNat = 67305985 := by decide
  have hmax : maxlen = 7471104 := rfl
  rw [← hn', ← hget] at hn
  change (get32 false [1, 2, 3, 4]).toNat ≤ maxlen at hn
  omega

theorem farOffset_outside : main lp64 (some zeroBuf) true farOffset = .outside ∧
    ¬Upholds lp64 (some zeroBuf) true farOffset ∧ ¬Upholds lp64 (some zeroBuf) true fourFiles := by
  have hlegal : ∀ o ∈ farOffset, Legal lp64 o := by
    intro o ho
    rcases List.mem_pair.mp ho with rfl | rfl
    · exact ⟨⟨0x200000, by decide⟩, by decide⟩
    · trivial
  have hout : main lp64 (some zeroBuf) true farOffset = .outside := by
    by_contra hne
    have hfit := (main_outside lp64 (some zeroBuf) true hlegal).mp hne zeroBuf rfl
    have hle : 0x800000 ≤ maxlen := hfit.1
    exact absurd hle (by decide)
  refine ⟨hout, ?_, fourFiles_lost⟩
  rintro (hf | ⟨image, hm, -⟩)
  · rw [hout] at hf
    exact absurd hf (by simp)
  · rw [hout] at hm
    exact absurd hm (by simp)

end Trx
