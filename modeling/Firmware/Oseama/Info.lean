import Firmware.Lib.Cstr
import Firmware.Oseama.Extract

/-!
# oseama info: the meta strings

`oseama info` reads each meta block into a buffer of 1024 bytes, ends it with a NUL and prints the
strings in it.

* `Buf`                    `buf`, with any content at first;
* `printMeta`              the NUL and the loop over the strings; `none` leaves the buffer;
* `infoEntities`, `info`   the two functions, on what is printed and returned;
* `posAt`                  where the walk over the entities comes to;
* `info_safe_iff`          it is safe exactly if no block that it prints is empty, and the walk ends.
-/

set_option linter.unusedVariables false

namespace Oseama
open Img Word Machine

structure Buf where
  bytes : List UInt8
  length_eq : bytes.length = 1024

namespace Buf

/-- `fread` of at most 1024 bytes -/
def fread (buf : Buf) (d : List UInt8) : Option Buf :=
  if h : d.length ≤ 1024 then
    some ⟨poke buf.bytes 0 d, by
      rw [poke_length _ _ _ (by rw [buf.length_eq, Nat.zero_add]; exact h), buf.length_eq]⟩
  else none

/-- `buf[i] = b` -/
def put (buf : Buf) (i : Int) (b : UInt8) : Option Buf :=
  if 0 ≤ i ∧ i < 1024 then
    some ⟨buf.bytes.set i.toNat b, by rw [List.length_set, buf.length_eq]⟩
  else none

end Buf

/-- what is printed; `metaEntry metasize start s` is the string at `start` of a block of `metasize`
bytes -/
inductive Line where
  | blank
  | entityOffset (n : Nat)
  | entitySize (n : Nat)
  | metaSize (n : Nat)
  | imageSize (n : Nat)
  | metaEntry (metasize start : Nat) (s : List UInt8)
deriving DecidableEq

/-! ## the code -/

/-- the loop over the strings before `end`, from `tmp` on -/
def metaLoop (buf : Buf) (metasize : Nat) : Nat → Nat → Option (List Line)
  | 0, _ => none
  | fuel + 1, tmp =>
    if tmp < metasize - 1 then
      match CStr.strlen (buf.bytes.drop tmp) with
      | none => none
      | some 0 => some []
      | some n =>
        (metaLoop buf metasize fuel (tmp + n + 1)).map
          (Line.metaEntry metasize tmp (slice buf.bytes tmp n) :: ·)
    else some []

/-- `end = &buf[metasize - 1]; *end = '\0';` and the loop -/
def printMeta (buf : Buf) (metasize : Nat) : Option (Buf × List Line) :=
  (buf.put ((metasize : Int) - 1) 0).bind fun buf =>
    (metaLoop buf metasize metasize 0).map fun lines => (buf, lines)

/-- the variables of `oseama_info_entities`, the position in the file, and what is printed -/
structure InfoSt where
  i : Int
  pos : Nat
  buf : Buf
  lines : List Line

/-- a turn of the loop of `oseama_info_entities` -/
def infoStep (h : Host) (file : List UInt8) (entityIdx : Int) (s : InfoSt) :
    InfoSt ⊕ Option (Int × List Line) :=
  let hdr := slice file s.pos entityLen
  if hdr.length ≠ entityLen then .inr (some (0, s.lines))
  else if get32 true (slice hdr 0 4) ≠ seamaMagic then .inr (some (-22, s.lines))
  else
    let metasize := (get16 true (slice hdr 6 2)).toNat
    let imagesize := (get32 true (slice hdr 8 4)).toNat
    if 0 ≤ entityIdx ∧ s.i ≠ entityIdx then
      .inl { s with i := s.i + 1, pos := h.seek (s.pos + entityLen) (h.size (metasize + imagesize)) }
    else if 1024 ≤ metasize then .inr (some (-22, s.lines))
    else
      let lines := s.lines ++ (if entityIdx < 0 then [.blank] else []) ++
        [.entityOffset s.pos, .entitySize (h.size (entityLen + metasize + imagesize)), .metaSize metasize,
          .imageSize imagesize]
      let d := slice file (s.pos + entityLen) metasize
      match s.buf.fread d with
      | none => .inr none
      | some buf =>
        if d.length ≠ metasize then .inr (some (-5, lines))
        else
          match printMeta buf metasize with
          | none => .inr none
          | some (buf, entries) =>
            .inl ⟨s.i + 1, h.seek (s.pos + entityLen + metasize) imagesize, buf, lines ++ entries⟩

/-- `oseama_info_entities` from a position on -/
def infoEntities (h : Host) (buf : Buf) (file : List UInt8) (entityIdx : Int) (fuel pos : Nat) :
    Option (Int × List Line) :=
  (run (infoStep h file entityIdx) fuel ⟨0, pos, buf, []⟩).bind id

/-- `oseama_info`; `buf` and `buf'` are the two buffers, a file that cannot be opened is `none` -/
def info (h : Host) (buf buf' : Buf) (seama : Option (List UInt8)) (entityIdx : Int) (fuel : Nat) :
    Option (Int × List Line) :=
  match seama with
  | none => some (-13, [])
  | some file =>
    let hdr := slice file 0 sealLen
    if hdr.length ≠ sealLen then some (-5, [])
    else
      let metasize := (get16 true (slice hdr 6 2)).toNat
      let imagesize := (get32 true (slice hdr 8 4)).toNat
      if get32 true (slice hdr 0 4) ≠ seamaMagic then some (-22, [])
      else if 1024 ≤ metasize then some (-22, [])
      else if imagesize ≠ 0 then some (-22, [])
      else
        let d := slice file sealLen metasize
        (buf.fread d).bind fun buf =>
          if d.length ≠ metasize then some (-5, [])
          else
            (if entityIdx < 0 then
              (printMeta buf metasize).map fun r => [.metaSize metasize, .imageSize imagesize] ++ r.2
            else some []).bind fun lines =>
              -- the return value of `oseama_info_entities` is not looked at
              (infoEntities h buf' file entityIdx fuel (sealLen + metasize)).map
                fun r => (0, lines ++ r.2)

/-! ## a block -/

/-- the string and its NUL are in the block -/
def Line.Inside : Line → Prop
  | .metaEntry metasize start s => start + s.length < metasize
  | _ => True

/-- a string ends at the first NUL -/
theorem strlen_le {l : List UInt8} {j : Nat} (h : l[j]? = some 0) :
    ∃ n, n ≤ j ∧ CStr.strlen l = some n := by
  induction l generalizing j with
  | nil => exact absurd h (by simp)
  | cons b l ih =>
    unfold CStr.strlen
    by_cases hb : b = 0
    · exact ⟨0, Nat.zero_le j, if_pos hb⟩
    · rw [if_neg hb]
      cases j with
      | zero => exact absurd (Option.some.inj h) hb
      | succ j =>
        obtain ⟨n, hn, hs⟩ := ih (List.getElem?_cons_succ ▸ h)
        exact ⟨n + 1, by omega, by rw [hs]; rfl⟩

/-- **The loop** over a block that ends with a NUL. -/
theorem metaLoop_inside (buf : Buf) {metasize : Nat} (hend : buf.bytes[metasize - 1]? = some 0)
    (fuel : Nat) : ∀ tmp, 0 < fuel → metasize ≤ tmp + fuel →
      ∃ lines, metaLoop buf metasize fuel tmp = some lines ∧ ∀ l ∈ lines, l.Inside := by
  induction fuel with
  | zero => exact fun tmp h => absurd h (Nat.lt_irrefl 0)
  | succ fuel ih =>
    intro tmp _ hle
    unfold metaLoop
    by_cases htmp : tmp < metasize - 1
    · have h0 : (buf.bytes.drop tmp)[metasize - 1 - tmp]? = some 0 := by
        rw [List.getElem?_drop, Nat.add_sub_cancel' (by omega), hend]
      obtain ⟨n, hn, hs⟩ := strlen_le h0
      rw [if_pos htmp, hs]
      cases n with
      | zero => exact ⟨[], rfl, by simp⟩
      | succ n =>
        obtain ⟨lines, hl, hin⟩ := ih (tmp + (n + 1) + 1) (by omega) (by omega)
        change ∃ lines, Option.map _ (metaLoop buf metasize fuel (tmp + (n + 1) + 1)) = some lines ∧ _
        rw [hl]
        refine ⟨_, rfl, fun l hmem => ?_⟩
        rcases List.mem_cons.mp hmem with rfl | hmem
        · unfold Line.Inside slice
          have := List.length_take_le (n + 1) (buf.bytes.drop tmp)
          omega
        · exact hin l hmem
    · rw [if_neg htmp]
      exact ⟨[], rfl, by simp⟩

/-- **A block** of less than 1024 bytes is printed safely exactly if it is not empty. -/
theorem printMeta_spec (buf : Buf) {metasize : Nat} (hlt : metasize < 1024) :
    if metasize = 0 then printMeta buf metasize = none
    else ∃ r, printMeta buf metasize = some r ∧ ∀ l ∈ r.2, l.Inside := by
  unfold printMeta Buf.put
  split
  · next h0 =>
    rw [h0, if_neg (by decide)]
    rfl
  · next h0 =>
    rw [if_pos (by omega)]
    have hend : (buf.bytes.set ((metasize : Int) - 1).toNat 0)[metasize - 1]? = some 0 := by
      rw [show ((metasize : Int) - 1).toNat = metasize - 1 by omega]
      exact List.getElem?_set_self (by rw [buf.length_eq]; omega)
    obtain ⟨lines, hl, hin⟩ := metaLoop_inside ⟨_, by rw [List.length_set, buf.length_eq]⟩ hend
      metasize 0 (by omega) (by omega)
    rw [Option.bind_some, hl]
    exact ⟨_, rfl, hin⟩

/-! ## the walk -/

/-- the entity is printed -/
def Shown (entityIdx : Int) (k : Nat) : Prop := entityIdx < 0 ∨ (k : Int) = entityIdx

instance (entityIdx : Int) (k : Nat) : Decidable (Shown entityIdx k) :=
  inferInstanceAs (Decidable (_ ∨ _))

instance (file : List UInt8) (pos : Nat) : Decidable (Header file pos) :=
  inferInstanceAs (Decidable (_ ∧ _))

/-- the meta block of the entity at `pos` is in the file, and not longer than the buffer -/
def MetaFits (file : List UInt8) (pos : Nat) : Prop :=
  metasizeAt file pos < 1024 ∧ pos + entityLen + metasizeAt file pos ≤ file.length

instance (file : List UInt8) (pos : Nat) : Decidable (MetaFits file pos) :=
  inferInstanceAs (Decidable (_ ∧ _))

/-- the position behind the entity `k` -/
def behind (h : Host) (file : List UInt8) (entityIdx : Int) (k pos : Nat) : Nat :=
  if Shown entityIdx k then h.seek (pos + entityLen + metasizeAt file pos) (imagesizeAt file pos)
  else h.seek (pos + entityLen) (h.size (metasizeAt file pos + imagesizeAt file pos))

/-- where the walk comes to the entity `k` -/
def posAt (h : Host) (file : List UInt8) (entityIdx : Int) : Nat → Option Nat
  | 0 => some (sealLen + metasizeAt file 0)
  | k + 1 => (posAt h file entityIdx k).bind fun pos =>
    if Header file pos ∧ (Shown entityIdx k → MetaFits file pos) then some (behind h file entityIdx k pos)
    else none

section
variable {h : Host} {file : List UInt8} {entityIdx : Int}

theorem not_shown {k : Nat} : 0 ≤ entityIdx ∧ (k : Int) ≠ entityIdx ↔ ¬Shown entityIdx k := by
  unfold Shown
  omega

theorem Buf.fread_eq_some {buf : Buf} {d : List UInt8} (h : d.length ≤ 1024) :
    ∃ buf', buf.fread d = some buf' := by
  unfold Buf.fread
  rw [dif_pos h]
  exact ⟨_, rfl⟩

/-- a turn where there is no header -/
theorem infoStep_end (h : Host) (entityIdx : Int) {s : InfoSt} (hh : ¬Header file s.pos) :
    ∃ r, infoStep h file entityIdx s = .inr (some (r, s.lines)) := by
  unfold infoStep
  dsimp only
  by_cases hlen : (slice file s.pos entityLen).length ≠ entityLen
  · exact ⟨0, if_pos hlen⟩
  · rw [if_neg hlen, if_pos]
    · exact ⟨-22, rfl⟩
    · rw [(hdr_sizes file s.pos (by decide)).1]
      refine fun hm => hh ⟨?_, hm⟩
      rw [not_not] at hlen
      unfold slice at hlen
      rw [List.length_take, List.length_drop] at hlen
      unfold entityLen at hlen ⊢
      omega

/-- what is printed of an entity before its strings -/
def head (h : Host) (file : List UInt8) (entityIdx : Int) (pos : Nat) : List Line :=
  (if entityIdx < 0 then [.blank] else []) ++
    [.entityOffset pos, .entitySize (h.size (lengthAt file pos)), .metaSize (metasizeAt file pos),
      .imageSize (imagesizeAt file pos)]

theorem head_inside (pos : Nat) : ∀ l ∈ head h file entityIdx pos, l.Inside := by
  unfold head
  split
  · simp [Line.Inside]
  · simp [Line.Inside]

/-- a turn at a header -/
theorem infoStep_header {s : InfoSt} (hh : Header file s.pos) :
    infoStep h file entityIdx s =
      if 0 ≤ entityIdx ∧ s.i ≠ entityIdx then
        .inl ⟨s.i + 1, h.seek (s.pos + entityLen) (h.size (metasizeAt file s.pos + imagesizeAt file s.pos)),
          s.buf, s.lines⟩
      else if 1024 ≤ metasizeAt file s.pos then .inr (some (-22, s.lines))
      else
        match s.buf.fread (slice file (s.pos + entityLen) (metasizeAt file s.pos)) with
        | none => .inr none
        | some buf =>
          if (slice file (s.pos + entityLen) (metasizeAt file s.pos)).length ≠ metasizeAt file s.pos then
            .inr (some (-5, s.lines ++ head h file entityIdx s.pos))
          else
            match printMeta buf (metasizeAt file s.pos) with
            | none => .inr none
            | some (buf, entries) =>
              .inl ⟨s.i + 1, h.seek (s.pos + entityLen + metasizeAt file s.pos) (imagesizeAt file s.pos), buf,
                s.lines ++ head h file entityIdx s.pos ++ entries⟩ := by
  obtain ⟨h1, h2, h3⟩ := hdr_sizes file s.pos (show 12 ≤ entityLen by decide)
  unfold infoStep head lengthAt
  dsimp only
  rw [if_neg (by rw [slice_length file s.pos _ hh.1]; exact fun h => h rfl), h1, h2, h3,
    if_neg (by rw [hh.2]; exact fun h => h rfl), List.append_assoc]

/-- **A turn** of the walk: it ends, it goes on to the next entity, or it leaves the buffer at an
empty block. -/
theorem infoStep_cases (h : Host) (file : List UInt8) (entityIdx : Int) (k pos : Nat) (buf : Buf) {lines : List Line}
    (hin : ∀ l ∈ lines, l.Inside) :
    (∃ r, infoStep h file entityIdx ⟨k, pos, buf, lines⟩ = .inr (some r) ∧ (∀ l ∈ r.2, l.Inside) ∧
      ¬(Header file pos ∧ (Shown entityIdx k → MetaFits file pos))) ∨
    (∃ buf' lines', infoStep h file entityIdx ⟨k, pos, buf, lines⟩ =
        .inl ⟨(k + 1 : Nat), behind h file entityIdx k pos, buf', lines'⟩ ∧ (∀ l ∈ lines', l.Inside) ∧
      Header file pos ∧ (Shown entityIdx k → MetaFits file pos ∧ metasizeAt file pos ≠ 0)) ∨
    (infoStep h file entityIdx ⟨k, pos, buf, lines⟩ = .inr none ∧ Header file pos ∧
      Shown entityIdx k ∧ metasizeAt file pos = 0) := by
  have happ : ∀ {a b : List Line}, (∀ l ∈ a, l.Inside) → (∀ l ∈ b, l.Inside) → ∀ l ∈ a ++ b, l.Inside :=
    fun ha hb l hl => (List.mem_append.mp hl).elim (ha l) (hb l)
  by_cases hh : Header file pos
  · rw [infoStep_header hh]
    have hle := hh.1
    unfold behind
    dsimp only
    by_cases hs : Shown entityIdx k
    · rw [if_neg (fun hn => not_shown.mp hn hs), if_pos hs]
      by_cases hm : metasizeAt file pos < 1024
      · have hd : (slice file (pos + entityLen) (metasizeAt file pos)).length ≤ metasizeAt file pos :=
          List.length_take_le _ _
        obtain ⟨buf₁, hb⟩ := buf.fread_eq_some (d := slice file (pos + entityLen) (metasizeAt file pos)) (by omega)
        rw [if_neg (by omega), hb]
        dsimp only
        by_cases hfit : pos + entityLen + metasizeAt file pos ≤ file.length
        · rw [if_neg (by rw [slice_length file _ _ hfit]; exact fun h => h rfl)]
          have hp := printMeta_spec buf₁ hm
          split at hp
          · next h0 =>
            rw [hp]
            exact Or.inr (Or.inr ⟨rfl, hh, hs, h0⟩)
          · next h0 =>
            obtain ⟨⟨buf₂, entries⟩, hp, he⟩ := hp
            rw [hp]
            exact Or.inr (Or.inl ⟨buf₂, _, rfl, happ (happ hin (head_inside pos)) he, hh,
              fun _ => ⟨⟨hm, hfit⟩, h0⟩⟩)
        · refine Or.inl ⟨(-5, lines ++ head h file entityIdx pos), ?_, happ hin (head_inside pos),
            fun hgo => hfit (hgo.2 hs).2⟩
          rw [if_pos]
          unfold slice
          rw [List.length_take, List.length_drop]
          omega
      · rw [if_pos (by omega)]
        exact Or.inl ⟨(-22, lines), rfl, hin, fun hgo => hm (hgo.2 hs).1⟩
    · rw [if_pos (not_shown.mpr hs), if_neg hs]
      exact Or.inr (Or.inl ⟨buf, lines, rfl, hin, hh, fun h => absurd h hs⟩)
  · obtain ⟨r, hr⟩ := infoStep_end h entityIdx (s := ⟨k, pos, buf, lines⟩) hh
    exact Or.inl ⟨_, hr, hin, fun hgo => hh hgo.1⟩

/-- the walk comes to the entity, or it has left the buffer before -/
theorem walk_posAt (buf : Buf) (k : Nat) : ∀ {pos : Nat}, posAt h file entityIdx k = some pos →
    Ends (infoStep h file entityIdx) ⟨0, sealLen + metasizeAt file 0, buf, []⟩ none ∨
      ∃ buf' lines, Leads (infoStep h file entityIdx) ⟨0, sealLen + metasizeAt file 0, buf, []⟩
        ⟨k, pos, buf', lines⟩ ∧ ∀ l ∈ lines, l.Inside := by
  induction k with
  | zero =>
    intro pos hp
    obtain rfl := Option.some.inj hp
    exact Or.inr ⟨buf, [], Leads.refl _, by simp⟩
  | succ k ih =>
    intro pos hp
    obtain ⟨pos₀, hp₀, hp⟩ := Option.bind_eq_some_iff.mp hp
    rcases ih hp₀ with hn | ⟨buf₁, lines₁, hl, hin⟩
    · exact Or.inl hn
    split at hp
    · next hgo =>
      obtain rfl := Option.some.inj hp
      rcases infoStep_cases _ _ _ _ _ _ hin with ⟨_, -, -, hno⟩ | ⟨buf₂, lines₂, hs, hin₂, -⟩ | ⟨hs, -⟩
      · exact absurd hgo hno
      · exact Or.inr ⟨buf₂, lines₂, hl.trans (Leads.one hs), hin₂⟩
      · exact Or.inl (hl.ends_iff.mpr (Ends.done hs))
    · exact absurd hp (by simp)

/-- a run that does not leave the buffer goes on as long as there are entities -/
theorem run_posAt (hne : ∀ k pos, posAt h file entityIdx k = some pos → Header file pos →
      Shown entityIdx k → metasizeAt file pos ≠ 0) (n : Nat) :
    ∀ {k pos : Nat} {buf : Buf} {lines : List Line}, posAt h file entityIdx k = some pos →
      (∀ l ∈ lines, l.Inside) → posAt h file entityIdx (k + n) = none →
      ∃ r, Ends (infoStep h file entityIdx) ⟨k, pos, buf, lines⟩ (some r) ∧ ∀ l ∈ r.2, l.Inside := by
  induction n with
  | zero =>
    intro k pos buf lines hp _ hnone
    rw [Nat.add_zero, hp] at hnone
    exact absurd hnone (by simp)
  | succ n ih =>
    intro k pos buf lines hp hin hnone
    rcases infoStep_cases h file entityIdx k pos buf hin with
      ⟨r, hs, hr, -⟩ | ⟨buf₂, lines₂, hs, hin₂, hh, hshown⟩ | ⟨-, hh, hshown, h0⟩
    · exact ⟨r, Ends.done hs, hr⟩
    · have hp' : posAt h file entityIdx (k + 1) = some (behind h file entityIdx k pos) := by
        unfold posAt
        rw [hp, Option.bind_some, if_pos ⟨hh, fun h => (hshown h).1⟩]
      obtain ⟨r, hr, hi⟩ := ih hp' hin₂ (by rw [← hnone]; congr 1; omega)
      exact ⟨r, (ends_step hs).mpr hr, hi⟩
    · exact absurd h0 (hne k pos hp hh hshown)

/-- no entity that is printed has an empty block -/
def NoEmptyMeta (h : Host) (file : List UInt8) (entityIdx : Int) : Prop :=
  ∀ k pos, posAt h file entityIdx k = some pos → Header file pos → Shown entityIdx k →
    metasizeAt file pos ≠ 0

theorem posAt_none_of_run (n : Nat) : ∀ {k pos : Nat} {buf : Buf} {lines : List Line} {r : Int × List Line},
    posAt h file entityIdx k = some pos → (∀ l ∈ lines, l.Inside) →
    run (infoStep h file entityIdx) n ⟨k, pos, buf, lines⟩ = some (some r) →
    ∃ m, posAt h file entityIdx m = none := by
  induction n with
  | zero => exact fun _ _ hr => absurd hr (by simp [run])
  | succ n ih =>
    intro k pos buf lines r hp hin hr
    have hp' : posAt h file entityIdx (k + 1) =
        if Header file pos ∧ (Shown entityIdx k → MetaFits file pos) then some (behind h file entityIdx k pos)
        else none := by
      conv_lhs => unfold posAt
      rw [hp, Option.bind_some]
    unfold run at hr
    rcases infoStep_cases h file entityIdx k pos buf hin with
      ⟨_, -, -, hno⟩ | ⟨buf₂, lines₂, hs, hin₂, hh, hshown⟩ | ⟨hs, -⟩
    · exact ⟨k + 1, hp'.trans (if_neg hno)⟩
    · rw [hs] at hr
      exact ih (hp'.trans (if_pos ⟨hh, fun h => (hshown h).1⟩)) hin₂ hr
    · rw [hs] at hr
      exact absurd hr (by simp)

/-- **The walk** ends safely exactly if no block that is printed is empty, and it has an end. -/
theorem walk_iff (h : Host) (file : List UInt8) (entityIdx : Int) (buf : Buf) :
    (∃ r, Ends (infoStep h file entityIdx) ⟨0, sealLen + metasizeAt file 0, buf, []⟩ (some r) ∧
        ∀ l ∈ r.2, l.Inside) ↔
      NoEmptyMeta h file entityIdx ∧ ∃ n, posAt h file entityIdx n = none := by
  constructor
  · rintro ⟨r, hr, -⟩
    refine ⟨fun k pos hp hh hs h0 => ?_, ?_⟩
    · have hnone : ¬Ends (infoStep h file entityIdx) ⟨0, sealLen + metasizeAt file 0, buf, []⟩ none :=
        fun hn => absurd (hr.unique hn) (by simp)
      rcases walk_posAt buf k hp with hn | ⟨buf₁, lines₁, hl, hin⟩
      · exact hnone hn
      rcases infoStep_cases _ _ _ _ _ _ hin with ⟨_, -, -, hno⟩ | ⟨_, _, -, -, -, hne⟩ | ⟨hst, -⟩
      · exact hno ⟨hh, fun _ => ⟨by omega, by rw [h0]; exact hh.1⟩⟩
      · exact (hne hs).2 h0
      · exact hnone (hl.ends_iff.mpr (Ends.done hst))
    · obtain ⟨n, hn⟩ := hr
      exact posAt_none_of_run n (k := 0) rfl (by simp) hn
  · rintro ⟨hne, n, hn⟩
    exact run_posAt hne n (k := 0) rfl (by simp) (by rw [Nat.zero_add]; exact hn)

/-- positions only grow: the walk has an end -/
theorem posAt_forward (hf : ∀ pos n, pos ≤ h.seek pos n) : posAt h file entityIdx (file.length + 1) = none := by
  have hle : ∀ k pos, posAt h file entityIdx k = some pos → k ≤ pos := by
    intro k
    induction k with
    | zero => exact fun pos _ => Nat.zero_le pos
    | succ k ih =>
      intro pos hp
      obtain ⟨pos₀, hp₀, hp⟩ := Option.bind_eq_some_iff.mp hp
      have hk := ih pos₀ hp₀
      split at hp
      · obtain rfl := Option.some.inj hp
        unfold behind entityLen
        split
        · exact le_trans (by omega) (hf _ _)
        · exact le_trans (by omega) (hf _ _)
      · exact absurd hp (by simp)
  cases hp : posAt h file entityIdx (file.length + 1) with
  | none => rfl
  | some pos =>
    obtain ⟨pos₀, hp₀, hp⟩ := Option.bind_eq_some_iff.mp hp
    have hk := hle _ _ hp₀
    split at hp
    · next hgo =>
      have := hgo.1.1
      unfold entityLen at this
      omega
    · exact absurd hp (by simp)

end

/-! ## what is safe -/

/-- `oseama_info` goes on to the meta block of the seal -/
def Sealed (file : List UInt8) : Prop :=
  sealLen ≤ file.length ∧ get32 true (slice file 0 4) = seamaMagic ∧ metasizeAt file 0 < 1024 ∧
    imagesizeAt file 0 = 0 ∧ sealLen + metasizeAt file 0 ≤ file.length

/-- `oseama_info` ends, stays inside its buffers, and prints only strings inside their blocks -/
def Safe (h : Host) (buf buf' : Buf) (file : List UInt8) (entityIdx : Int) : Prop :=
  ∃ fuel r lines, info h buf buf' (some file) entityIdx fuel = some (r, lines) ∧ ∀ l ∈ lines, l.Inside

section
variable {h : Host} {buf buf' : Buf} {file : List UInt8} {entityIdx : Int}

theorem info_sealed (h : Host) (buf buf' : Buf) (entityIdx : Int) (hs : Sealed file) : ∃ b, ∀ fuel,
    info h buf buf' (some file) entityIdx fuel =
      (if entityIdx < 0 then
        (printMeta b (metasizeAt file 0)).map fun r =>
          [.metaSize (metasizeAt file 0), .imageSize (imagesizeAt file 0)] ++ r.2
      else some []).bind fun lines =>
        (infoEntities h buf' file entityIdx fuel (sealLen + metasizeAt file 0)).map
          fun r => (0, lines ++ r.2) := by
  obtain ⟨hlen, hmagic, hm, hi, hfit⟩ := hs
  obtain ⟨h1, h2, h3⟩ := hdr_sizes file 0 (show 12 ≤ sealLen by decide)
  have hd := slice_length file sealLen _ hfit
  obtain ⟨b, hb⟩ := buf.fread_eq_some (d := slice file sealLen (metasizeAt file 0)) (by omega)
  refine ⟨b, fun fuel => ?_⟩
  unfold info
  dsimp only
  rw [if_neg (by rw [slice_length file 0 _ (by omega)]; exact fun h => h rfl), h1, h2, h3,
    if_neg (by rw [hmagic]; exact fun h => h rfl), if_neg (by omega), if_neg (by rw [hi]; exact fun h => h rfl),
    hb, Option.bind_some, if_neg (by rw [hd]; exact fun h => h rfl)]

theorem info_refused (h : Host) (buf buf' : Buf) (entityIdx : Int) (hs : ¬Sealed file) :
    ∃ r, ∀ fuel, info h buf buf' (some file) entityIdx fuel = some (r, []) := by
  obtain ⟨h1, h2, h3⟩ := hdr_sizes file 0 (show 12 ≤ sealLen by decide)
  unfold info
  dsimp only
  by_cases hlen : (slice file 0 sealLen).length ≠ sealLen
  · exact ⟨-5, fun _ => if_pos hlen⟩
  simp only [if_neg hlen, h1, h2, h3]
  by_cases hmagic : get32 true (slice file 0 4) ≠ seamaMagic
  · exact ⟨-22, fun _ => if_pos hmagic⟩
  simp only [if_neg hmagic]
  by_cases hm : 1024 ≤ metasizeAt file 0
  · exact ⟨-22, fun _ => if_pos hm⟩
  simp only [if_neg hm]
  by_cases hi : imagesizeAt file 0 ≠ 0
  · exact ⟨-22, fun _ => if_pos hi⟩
  have hd : (slice file sealLen (metasizeAt file 0)).length ≤ metasizeAt file 0 := List.length_take_le _ _
  obtain ⟨b, hb⟩ := buf.fread_eq_some (d := slice file sealLen (metasizeAt file 0)) (by omega)
  simp only [if_neg hi, hb, Option.bind_some]
  refine ⟨-5, fun _ => if_pos fun hfit => hs ?_⟩
  unfold slice at hlen hfit
  rw [List.length_take, List.length_drop] at hlen hfit
  exact ⟨by omega, not_not.mp hmagic, by omega, not_not.mp hi, by omega⟩

/-- **Safety of `oseama info`**: it is safe exactly if no meta block that it prints is empty and the
walk over the entities has an end, which it has where positions only grow. -/
theorem info_safe_iff (h : Host) (buf buf' : Buf) (file : List UInt8) (entityIdx : Int) :
    (Safe h buf buf' file entityIdx ↔
      (Sealed file → (entityIdx < 0 → metasizeAt file 0 ≠ 0) ∧ NoEmptyMeta h file entityIdx ∧
        ∃ n, posAt h file entityIdx n = none)) ∧
      ((∀ pos n, pos ≤ h.seek pos n) → ∃ n, posAt h file entityIdx n = none) := by
  refine ⟨?_, fun hf => ⟨_, posAt_forward hf⟩⟩
  by_cases hs : Sealed file
  · obtain ⟨b, hb⟩ := info_sealed h buf buf' entityIdx hs
    have hp := printMeta_spec b hs.2.2.1
    have hw := walk_iff h file entityIdx buf'
    constructor
    · rintro ⟨fuel, r, lines, hr, hin⟩ -
      rw [hb] at hr
      obtain ⟨lines₁, h1, hr⟩ := Option.bind_eq_some_iff.mp hr
      obtain ⟨r₂, h2, he⟩ := Option.map_eq_some_iff.mp hr
      obtain ⟨-, rfl⟩ := Prod.mk.inj he
      refine ⟨fun hidx h0 => ?_, hw.mp ⟨r₂, ⟨fuel, ?_⟩, fun l hl => hin l (List.mem_append_right _ hl)⟩⟩
      · rw [if_pos hidx] at h1
        rw [if_pos h0] at hp
        rw [hp] at h1
        exact absurd h1 (by simp)
      · obtain ⟨o, ho, rfl⟩ := Option.bind_eq_some_iff.mp h2
        exact ho
    · intro hcond
      obtain ⟨hseal, hne, hend⟩ := hcond hs
      obtain ⟨r₂, ⟨fuel, hr₂⟩, hin₂⟩ := hw.mpr ⟨hne, hend⟩
      have hent : infoEntities h buf' file entityIdx fuel (sealLen + metasizeAt file 0) = some r₂ := by
        unfold infoEntities
        rw [hr₂]
        rfl
      refine ⟨fuel, 0, ?_⟩
      rw [hb, hent]
      by_cases hidx : entityIdx < 0
      · rw [if_neg (hseal hidx)] at hp
        obtain ⟨r₁, hp, hin₁⟩ := hp
        rw [if_pos hidx, hp]
        refine ⟨_, rfl, fun l hl => ?_⟩
        rcases List.mem_append.mp hl with hl | hl
        · rcases List.mem_append.mp hl with hl | hl
          · rcases List.mem_pair.mp hl with rfl | rfl
            · trivial
            · trivial
          · exact hin₁ l hl
        · exact hin₂ l hl
      · rw [if_neg hidx]
        exact ⟨_, rfl, fun l hl => hin₂ l hl⟩
  · obtain ⟨r, hr⟩ := info_refused h buf buf' entityIdx hs
    exact iff_of_true ⟨0, r, [], hr 0, by simp⟩ fun h => absurd h hs

end

def zeroBuf : Buf := ⟨zeros 1024, zeros_length 1024⟩

theorem emptySeal_sealed : Sealed emptySeal := by
  unfold Sealed
  decide

/-- a seal without meta data is left at once, for its `buf[-1]` -/
theorem emptySeal_unsafe : Sealed emptySeal ∧ info lp64 zeroBuf zeroBuf (some emptySeal) (-1) 1 = none ∧
    ¬Safe lp64 zeroBuf zeroBuf emptySeal (-1) := by
  obtain ⟨b, hb⟩ := info_sealed lp64 zeroBuf zeroBuf (-1) emptySeal_sealed
  have h0 : metasizeAt emptySeal 0 = 0 := by decide
  have hp := printMeta_spec b emptySeal_sealed.2.2.1
  rw [if_pos h0] at hp
  have hnone : ∀ fuel, info lp64 zeroBuf zeroBuf (some emptySeal) (-1) fuel = none := by
    intro fuel
    rw [hb, if_pos (by decide), hp]
    rfl
  refine ⟨emptySeal_sealed, hnone 1, ?_⟩
  rintro ⟨fuel, r, lines, hr, -⟩
  rw [hnone] at hr
  exact absurd hr (by simp)

end Oseama
