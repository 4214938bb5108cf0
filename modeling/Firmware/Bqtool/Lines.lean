import Firmware.Bqtool.Bqfs

/-!
# bqtool: the lines of a bqfs file

`read_line`, call after call.

* `lines`, `isComment` the lines of a file that are not blank, and those that are comments;
* `Ahead`, `Fits`   the lines that are still to come, and those for which the buffer does;
* `readLine_fits`, `readLine_gone`, `readLine_tooLong`, `readLine_end` what a call does.
-/

set_option linter.unusedVariables false

namespace Bqtool
open Img Scanf CStr

/-! ## Lines -/

/-- the lines that are not blank, without what is blank before them; a read error leaves no last one -/
def linesFrom (error : Bool) : List UInt8 → List UInt8 → List (List UInt8)
  | [], line => if error ∨ line = [] then [] else [line]
  | c :: bytes, line =>
    if c = 13 ∨ c = 10 then
      if line = [] then linesFrom error bytes [] else line :: linesFrom error bytes []
    else if line = [] ∧ (c = 9 ∨ c = 32) then linesFrom error bytes []
    else linesFrom error bytes (line ++ [c])

def lines (input : Input) : List (List UInt8) := linesFrom input.error input.bytes []

def isComment (line : List UInt8) : Bool := line.head? = some 59

section
variable {error : Bool} {c : UInt8} {bytes line : List UInt8}

theorem linesFrom_skip (hc : c = 13 ∨ c = 10 ∨ c = 9 ∨ c = 32) :
    linesFrom error (c :: bytes) [] = linesFrom error bytes [] := by
  rcases hc with rfl | rfl | rfl | rfl <;> rfl

theorem linesFrom_end (hc : c = 13 ∨ c = 10) (hline : line ≠ []) :
    linesFrom error (c :: bytes) line = line :: linesFrom error bytes [] := by
  conv_lhs => unfold linesFrom
  rw [if_pos hc, if_neg hline]

theorem linesFrom_byte (hc : ¬ (c = 13 ∨ c = 10)) (hb : line = [] → ¬ (c = 9 ∨ c = 32)) :
    linesFrom error (c :: bytes) line = linesFrom error bytes (line ++ [c]) := by
  conv_lhs => unfold linesFrom
  rw [if_neg hc, if_neg fun h => hb h.1 h.2]

/-- white space before a line, the end of a line, or a byte of it -/
theorem byte_cases (c : UInt8) (line : List UInt8) :
    (line = [] ∧ (c = 13 ∨ c = 10 ∨ c = 9 ∨ c = 32)) ∨ (line ≠ [] ∧ (c = 13 ∨ c = 10)) ∨
      (¬ (c = 13 ∨ c = 10) ∧ (line = [] → ¬ (c = 9 ∨ c = 32))) := by
  tauto

end

theorem linesFrom_length {error : Bool} {bytes : List UInt8} : ∀ {line l : List UInt8}
    {ls : List (List UInt8)}, linesFrom error bytes line = l :: ls → line.length ≤ l.length := by
  induction bytes with
  | nil =>
    intro line l ls h
    unfold linesFrom at h
    split at h
    · cases h
    · obtain ⟨rfl, -⟩ := List.cons.inj h
      exact Nat.le_refl _
  | cons c bytes ih =>
    intro line l ls h
    obtain ⟨rfl, -⟩ | ⟨hline, hc⟩ | ⟨hc, hb⟩ := byte_cases c line
    · exact Nat.zero_le _
    · rw [linesFrom_end hc hline] at h
      rw [(List.cons.inj h).1]
    · rw [linesFrom_byte hc hb] at h
      have hle := ih h
      rw [List.length_append] at hle
      omega

/-- only a read error loses what has been read of a line -/
theorem linesFrom_eq_nil {error : Bool} {bytes : List UInt8} : ∀ {line : List UInt8},
    linesFrom error bytes line = [] → line = [] ∨ error = true := by
  induction bytes with
  | nil =>
    intro line h
    unfold linesFrom at h
    split at h
    · next hor => exact hor.symm
    · cases h
  | cons c bytes ih =>
    intro line h
    obtain ⟨rfl, -⟩ | ⟨hline, hc⟩ | ⟨hc, hb⟩ := byte_cases c line
    · exact .inl rfl
    · rw [linesFrom_end hc hline] at h
      cases h
    · rw [linesFrom_byte hc hb] at h
      exact .inr ((ih h).resolve_left fun e => by simp at e)

/-- a line is not empty, and has no end of line in it -/
theorem linesFrom_mem {error : Bool} {bytes : List UInt8} : ∀ {line l : List UInt8}, 10 ∉ line →
    l ∈ linesFrom error bytes line → l ≠ [] ∧ 10 ∉ l := by
  induction bytes with
  | nil =>
    intro line l hline h
    unfold linesFrom at h
    split at h
    · cases h
    · next hne =>
      obtain rfl := List.mem_singleton.mp h
      exact ⟨fun e => hne (.inr e), hline⟩
  | cons c bytes ih =>
    intro line l hline h
    obtain ⟨rfl, hc⟩ | ⟨hne, hc⟩ | ⟨hc, hb⟩ := byte_cases c line
    · rw [linesFrom_skip hc] at h
      exact ih List.not_mem_nil h
    · rw [linesFrom_end hc hne] at h
      rcases List.mem_cons.mp h with rfl | h
      · exact ⟨hne, hline⟩
      · exact ih List.not_mem_nil h
    · rw [linesFrom_byte hc hb] at h
      refine ih (fun hm => ?_) h
      rcases List.mem_append.mp hm with hm | hm
      · exact hline hm
      · exact hc (.inr (List.mem_singleton.mp hm).symm)

/-! ## `read_line` -/

section
variable {M : Nat} {error inPlace moved : Bool} {c : UInt8} {bytes buf : List UInt8}

theorem readLoop_skip (hc : c = 13 ∨ c = 10 ∨ c = 9 ∨ c = 32) :
    readLoop M error inPlace (c :: bytes) [] moved = readLoop M error inPlace bytes [] moved := by
  conv_lhs => unfold readLoop
  rw [if_pos ⟨hc, rfl⟩]

theorem readLoop_end (hc : c = 13 ∨ c = 10) (hbuf : buf ≠ []) :
    readLoop M error inPlace (c :: bytes) buf moved = (buf, bytes, moved) := by
  unfold readLoop
  rw [if_neg fun h => hbuf (List.length_eq_zero_iff.mp h.2), if_pos hc]

theorem readLoop_byte (hc : ¬ (c = 13 ∨ c = 10)) (hb : buf = [] → ¬ (c = 9 ∨ c = 32)) :
    readLoop M error inPlace (c :: bytes) buf moved
      = if buf.length + 1 = M then readLoop M error inPlace bytes (buf ++ [c]) (moved || !inPlace)
        else if buf.length + 1 = M * 2 then ([], bytes, moved)
        else readLoop M error inPlace bytes (buf ++ [c]) moved := by
  have hno : ¬ ((c = 13 ∨ c = 10 ∨ c = 9 ∨ c = 32) ∧ buf.length = 0) := by
    rintro ⟨h, h0⟩
    have := hb (List.length_eq_zero_iff.mp h0)
    tauto
  conv_lhs => unfold readLoop
  rw [if_neg hno, if_neg hc]
  dsimp only
  rw [List.length_append, List.length_singleton]

theorem readLoop_rest (bytes : List UInt8) : ∀ (buf : List UInt8) (moved : Bool),
    (readLoop M error inPlace bytes buf moved).2.1.length ≤ bytes.length - 1 := by
  induction bytes with
  | nil => exact fun buf moved => Nat.le_refl _
  | cons c bytes ih =>
    intro buf moved
    have hle : bytes.length - 1 ≤ (c :: bytes).length - 1 := by
      rw [List.length_cons]
      omega
    obtain ⟨rfl, hc⟩ | ⟨hbuf, hc⟩ | ⟨hc, hb⟩ := byte_cases c buf
    · rw [readLoop_skip hc]
      exact Nat.le_trans (ih _ _) hle
    · rw [readLoop_end hc hbuf]
      exact Nat.le_refl _
    · rw [readLoop_byte hc hb]
      split
      · exact Nat.le_trans (ih _ _) hle
      · split
        · exact Nat.le_refl _
        · exact Nat.le_trans (ih _ _) hle

end

/-- what the loop of `read_line` leaves, by the lines that were to come -/
def LoopLeaves (M : Nat) (error inPlace : Bool) (before : Nat) (moved : Bool)
    (r : List UInt8 × List UInt8 × Bool) : List (List UInt8) → Prop
  | [] => r.1 = [] ∧ (error = false → r.2.2 = moved)
  | l :: ls =>
    r.2.2 = (moved || (decide (before < M ∧ M ≤ l.length) && !inPlace)) ∧
    if l.length < M * 2 then r.1 = l ∧ linesFrom error r.2.1 [] = ls else r.1 = []

/-- a line that ends here -/
theorem LoopLeaves.here {M : Nat} {error inPlace moved : Bool} (bytes : List UInt8) {buf : List UInt8}
    (hbuf : buf.length < M * 2) : LoopLeaves M error inPlace buf.length moved (buf, bytes, moved)
      (buf :: linesFrom error bytes []) := by
  refine ⟨?_, ?_⟩
  · rw [decide_eq_false (by omega), Bool.false_and, Bool.or_false]
  · rw [if_pos hbuf]
    exact ⟨rfl, rfl⟩

theorem readLoop_leaves {M : Nat} (hM : 0 < M) (error inPlace : Bool) (bytes : List UInt8) :
    ∀ (buf : List UInt8) (moved : Bool), buf.length < M * 2 →
      LoopLeaves M error inPlace buf.length moved (readLoop M error inPlace bytes buf moved)
        (linesFrom error bytes buf) := by
  induction bytes with
  | nil =>
    intro buf moved hbuf
    unfold linesFrom readLoop
    cases error with
    | true => exact ⟨rfl, fun _ => rfl⟩
    | false =>
      cases buf with
      | nil => exact ⟨rfl, fun _ => rfl⟩
      | cons b buf => exact LoopLeaves.here [] hbuf
  | cons c bytes ih =>
    intro buf moved hbuf
    obtain ⟨rfl, hc⟩ | ⟨hne, hc⟩ | ⟨hc, hb⟩ := byte_cases c buf
    · rw [linesFrom_skip hc, readLoop_skip hc]
      exact ih [] moved hbuf
    · rw [linesFrom_end hc hne, readLoop_end hc hne]
      exact LoopLeaves.here bytes hbuf
    · rw [linesFrom_byte hc hb, readLoop_byte hc hb]
      have hlen : (buf ++ [c]).length = buf.length + 1 := List.length_append
      have h1 := ih (buf ++ [c]) (moved || !inPlace)
      have h2 := ih (buf ++ [c]) moved
      rw [hlen] at h1 h2
      cases hls : linesFrom error bytes (buf ++ [c]) with
      | nil =>
        obtain rfl : error = true := (linesFrom_eq_nil hls).resolve_left fun e => by simp at e
        rw [hls] at h1 h2
        refine ⟨?_, fun e => nomatch e⟩
        split
        · exact (h1 (by omega)).1
        · split
          · rfl
          · exact (h2 (by omega)).1
      | cons l ls =>
        have hle := linesFrom_length hls
        rw [hlen] at hle
        rw [hls] at h1 h2
        split
        · next hm =>
          obtain ⟨hmoved, hline⟩ := h1 (by omega)
          refine ⟨?_, hline⟩
          rw [hmoved, decide_eq_false (by omega), decide_eq_true (by omega), Bool.false_and, Bool.or_false,
            Bool.true_and]
        · next hm =>
          split
          · next h2M =>
            refine ⟨?_, ?_⟩
            · rw [decide_eq_false (by omega), Bool.false_and, Bool.or_false]
            · rw [if_neg (by omega)]
          · next h2M =>
            obtain ⟨hmoved, hline⟩ := h2 (by omega)
            refine ⟨?_, hline⟩
            have hiff : (buf.length + 1 < M ∧ M ≤ l.length) ↔ (buf.length < M ∧ M ≤ l.length) := by omega
            rw [hmoved, decide_eq_decide.mpr hiff]

/-- the lines `ls` are still to come, the first of them in call `k` -/
structure Ahead (error : Bool) (k : Nat) (ls : List (List UInt8)) (file : File) : Prop where
  lines : linesFrom file.error file.bytes [] = ls
  error : file.error = error
  calls : file.calls = k
  valid : file.moved = false

/-- a line that fits the buffer, or fits it once it has been enlarged where it is -/
def Fits (alloc : Alloc) (cfg : Config) (k : Nat) (l : List UInt8) : Prop :=
  l.length < cfg.maxLineLen ∨ l.length < cfg.maxLineLen * 2 ∧ alloc k = true

section
variable {alloc : Alloc} {cfg : Config} {error : Bool} {k : Nat} {file : File}

theorem maxLineLen_pos (cfg : Config) : 0 < cfg.maxLineLen := by
  unfold Config.maxLineLen
  omega

theorem readLine_moved (h : file.moved = true) : readLine alloc cfg file = none := if_pos h

theorem Ahead.readLine {ls : List (List UInt8)} (alloc : Alloc) (cfg : Config) (h : Ahead error k ls file) :
    ∃ line file', Bqtool.readLine alloc cfg file
        = some (if line = [] then none else some (line.takeWhile (· ≠ 0)), file')
      ∧ (file'.error = error ∧ file'.calls = k + 1) ∧ file'.bytes.length ≤ file.bytes.length - 1
      ∧ LoopLeaves cfg.maxLineLen error (alloc k) 0 false (line, file'.bytes, file'.moved) ls := by
  have hpos := maxLineLen_pos cfg
  have hl := readLoop_leaves hpos file.error (alloc file.calls) file.bytes [] false
    (by rw [List.length_nil]; omega)
  have hrest : (readLoop cfg.maxLineLen file.error (alloc file.calls) file.bytes [] false).2.1.length
      ≤ file.bytes.length - 1 := readLoop_rest file.bytes [] false
  rw [h.lines] at hl
  rw [h.error, h.calls] at hl hrest
  unfold Bqtool.readLine
  rw [h.valid, if_neg Bool.false_ne_true, h.error, h.calls]
  revert hl hrest
  generalize readLoop cfg.maxLineLen error (alloc k) file.bytes [] false = r
  obtain ⟨line, bytes, moved⟩ := r
  intro hl hrest
  refine ⟨line, ⟨bytes, error, k + 1, moved⟩, ?_, ⟨rfl, rfl⟩, hrest, hl⟩
  cases line with
  | nil => rfl
  | cons b line =>
    have hlen : ¬ (b :: line).length + 1 < 2 := by
      rw [List.length_cons]
      omega
    dsimp only
    rw [if_neg hlen, if_neg (List.cons_ne_nil b line)]

/-- NULL at the end, or at a read error -/
theorem readLine_end (alloc : Alloc) (cfg : Config) (h : Ahead error k [] file) :
    ∃ file', readLine alloc cfg file = some (none, file') ∧ (error = false → file'.moved = false) := by
  obtain ⟨line, file', hr, -, -, hline, hmoved⟩ := h.readLine alloc cfg
  refine ⟨file', ?_, hmoved⟩
  rw [hr, if_pos hline]

variable {l : List UInt8} {ls : List (List UInt8)}

theorem Ahead.head (h : Ahead error k (l :: ls) file) : l ≠ [] ∧ 10 ∉ l :=
  linesFrom_mem List.not_mem_nil (by rw [h.lines]; exact List.mem_cons_self)

/-- the next line -/
theorem readLine_fits (h : Ahead error k (l :: ls) file) (hl : Fits alloc cfg k l) :
    ∃ file', readLine alloc cfg file = some (some (l.takeWhile (· ≠ 0)), file')
      ∧ Ahead error (k + 1) ls file' ∧ file'.bytes.length < file.bytes.length := by
  have hhead := h.head.1
  obtain ⟨line, file', hr, ⟨herr, hcalls⟩, hrest, hmoved, hline⟩ := h.readLine alloc cfg
  have hlt : l.length < cfg.maxLineLen * 2 := by
    rcases hl with hl | hl
    · omega
    · exact hl.1
  have hvalid : file'.moved = false := by
    refine hmoved.trans ?_
    rcases hl with hl | hl
    · rw [decide_eq_false (by omega)]
      rfl
    · rw [hl.2]
      simp
  rw [if_pos hlt] at hline
  obtain ⟨hl', hls⟩ := hline
  obtain rfl : line = l := hl'
  have hne : file.bytes ≠ [] := by
    intro h0
    have hlines := h.lines
    rw [h0, show linesFrom file.error [] [] = [] from if_pos (.inr rfl)] at hlines
    cases hlines
  have hpos := List.length_pos_iff.mpr hne
  refine ⟨file', ?_, ⟨by rw [herr]; exact hls, herr, hcalls, hvalid⟩, by omega⟩
  rw [hr, if_neg hhead]

/-- behind a line that did not fit, the buffer is gone -/
theorem readLine_gone (h : Ahead error k (l :: ls) file) (hl : cfg.maxLineLen ≤ l.length)
    (ha : alloc k = false) : ∃ o file', readLine alloc cfg file = some (o, file') ∧ file'.moved = true := by
  obtain ⟨line, file', hr, -, -, hmoved, -⟩ := h.readLine alloc cfg
  refine ⟨_, file', hr, hmoved.trans ?_⟩
  rw [ha, decide_eq_true ⟨maxLineLen_pos cfg, hl⟩]
  rfl

/-- NULL for a line that is too long -/
theorem readLine_tooLong (h : Ahead error k (l :: ls) file) (hl : cfg.maxLineLen * 2 ≤ l.length)
    (ha : alloc k = true) :
    ∃ file', readLine alloc cfg file = some (none, file') ∧ file'.moved = false := by
  obtain ⟨line, file', hr, -, -, hmoved, hline⟩ := h.readLine alloc cfg
  rw [if_neg (by omega)] at hline
  refine ⟨file', ?_, hmoved.trans ?_⟩
  · rw [hr, if_pos hline]
  · rw [ha]
    simp

end

end Bqtool
