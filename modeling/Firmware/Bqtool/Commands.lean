import Firmware.Bqtool.Bqfs

/-!
# bqtool: the commands of a bqfs file

What is in a line, as it should be and as `bqfs_get_cmd` reads it.

* `Command`, `strict` the commands, and the lines that are one;
* `reading`         what becomes of a line, by its fields alone;
* `extractHexByteStream_run` the bytes of a line in the buffer;
* `parseLine_reading` what `bqfs_get_cmd` makes of a line.
-/

set_option linter.unusedVariables false

namespace Bqtool
open Img Scanf CStr

/-- the commands, with all the bytes of their line -/
inductive Command
  | read (bytes : List UInt8) (len : UInt8)
  | write (bytes : List UInt8)
  | compare (bytes : List UInt8)
  | delay (ms : UInt16)
deriving DecidableEq

/-! ## Complete lines -/

def words (text : List UInt8) : List (List UInt8) := (text.splitOnP isBlank).filter fun w => !w.isEmpty

def hexByte (w : List UInt8) : Option UInt8 :=
  if (w.length = 1 ∨ w.length = 2) ∧ w.all isxdigit then some (UInt8.ofNat (digits 16 0 w)) else none

def hexBytes : List (List UInt8) → Option (List UInt8)
  | [] => some []
  | w :: ws => do
    let b ← hexByte w
    let bytes ← hexBytes ws
    some (b :: bytes)

/-- a decimal number up to `max` -/
def number (max : Nat) (w : List UInt8) : Option Nat :=
  if w ≠ [] ∧ w.all isdigit ∧ digits 10 0 w ≤ max then some (digits 10 0 w) else none

def strictBody (cfg : Config) (t : UInt8) (ws : List (List UInt8)) : Option Command :=
  if t = 82 then do
    let bytes ← hexBytes (ws.take cfg.base)
    match ws.drop cfg.base with
    | [w] => do
      let len ← number cfg.maxLen.toNat w
      if cfg.base ≤ len then some (.read bytes (UInt8.ofNat len)) else none
    | _ => none
  else if t = 87 ∨ t = 67 then do
    let bytes ← hexBytes ws
    if cfg.base < bytes.length ∧ bytes.length ≤ cfg.maxLen.toNat then
      some (if t = 87 then .write bytes else .compare bytes)
    else none
  else if t = 88 then
    match ws with
    | [w] => (number 65535 w).map fun ms => .delay (UInt16.ofNat ms)
    | _ => none
  else none

/-- a letter, a colon, and fields of which none is left over or cut short -/
def strict (cfg : Config) (line : List UInt8) : Option Command :=
  match line with
  | [] => none
  | t :: l =>
    if 0 ∈ l then none
    else
      match l.dropWhile isBlank with
      | 58 :: rest => strictBody cfg (toupper t) (words rest)
      | _ => none

/-- `W: AA 00 1` -/
example : strict ⟨.I2C, 0, 4294967295⟩ [87, 58, 32, 65, 65, 32, 48, 48, 32, 49] = some (.write [0xAA, 0, 1]) := by
  decide

/-! ## What becomes of a line -/

/-- `undefined` is what C leaves open, `rejected` an error -/
inductive Reading
  | undefined
  | rejected
  | taken (c : Command)
deriving DecidableEq

/-- the item before a space, and what is behind the space -/
def field (text : List UInt8) : List UInt8 × Option (List UInt8) :=
  let start := skipLeadingWhitespaces text
  match start.dropWhile (· ≠ 32) with
  | [] => (start, none)
  | _ :: behind => ((start.takeWhile (· ≠ 32)).rdropWhile (fun c => isBlank c || c = 10), some behind)

/-- the numbers that up to `n` items begin with, and what is behind one item more; no number is `none` -/
def hexRun (cfg : Config) : Nat → Option (List UInt8) → List UInt8 × Option (Option (List UInt8))
  | _, none => ([], some none)
  | 0, some text => ([], some (field text).2)
  | n + 1, some text =>
    let (val, tmp) := strtoul16 cfg.ulongMax (field text).1
    if tmp = (field text).1 then ([], none)
    else
      let (bytes, behind) := hexRun cfg n (field text).2
      (UInt8.ofNat val :: bytes, behind)

/-- the number that a text begins with, if there is one up to `max` -/
def leading (cfg : Config) (max : Nat) (text : List UInt8) : Option Nat :=
  let (val, tmp) := strtoul cfg.ulongMax text
  if text = tmp ∨ max < val then none else some val

def readingBody (cfg : Config) (t : UInt8) (text : List UInt8) : Reading :=
  if t = 82 then
    let (bytes, behind) := hexRun cfg cfg.base (some text)
    if cfg.maxLen.toNat < bytes.length then .undefined
    else
      match behind with
      | none => .rejected
      | some behind =>
        if bytes.length ≠ cfg.base then .rejected
        else
          match behind with
          | none => .undefined
          | some text =>
            match leading cfg 255 text with
            | none => .rejected
            | some len =>
              if cfg.base ≤ len ∧ len ≤ cfg.maxLen.toNat then .taken (.read bytes (UInt8.ofNat len))
              else .undefined
  else if t = 87 ∨ t = 67 then
    match hexRun cfg cfg.maxLen.toNat (some text) with
    | (bytes, none) => .rejected
    | (bytes, some _) =>
      if cfg.base < bytes.length then .taken (if t = 87 then .write bytes else .compare bytes)
      else .rejected
  else if t = 88 then
    match leading cfg 65535 text with
    | none => .rejected
    | some ms => if cfg.maxLen = 0 then .undefined else .taken (.delay (UInt16.ofNat ms))
  else .rejected

/-- a line up to its first NUL: what is before the colon, and behind it -/
def reading (cfg : Config) (line : List UInt8) : Reading :=
  let start := skipLeadingWhitespaces (line.takeWhile (· ≠ 0))
  match start.dropWhile (· ≠ 58) with
  | [] =>
    match start with
    | [t] => if toupper t = 88 then .undefined else .rejected
    | _ => .rejected
  | _ :: text =>
    match (start.takeWhile (· ≠ 58)).rdropWhile fun c => isBlank c || c = 10 with
    | [] => .undefined
    | [t] => readingBody cfg (toupper t) text
    | _ => .rejected

/-- `R: AA 00 3`: the length is cut off with the bytes -/
example : reading ⟨.I2C, 0, 4294967295⟩ [82, 58, 32, 65, 65, 32, 48, 48, 32, 51] = .undefined := by decide

/-! ## Items -/

theorem skip_mem {text : List UInt8} {c : UInt8} (h : c ∈ skipLeadingWhitespaces text) : c ∈ text :=
  (List.dropWhile_sublist _).subset h

/-- what is behind a space is shorter, and of the same text -/
theorem field_behind {text behind : List UInt8} (h : (field text).2 = some behind) :
    behind.length < text.length ∧ ∀ c ∈ behind, c ∈ text := by
  unfold field at h
  dsimp only at h
  split at h
  · cases h
  · next c r hr =>
    obtain rfl := Option.some.inj h
    have hsub : List.Sublist (c :: r) text := by
      rw [← hr]
      exact (List.dropWhile_sublist _).trans (List.dropWhile_sublist _)
    exact ⟨hsub.length_le, fun d hd => hsub.subset (List.mem_cons_of_mem c hd)⟩

theorem getItem_field {text : List UInt8} (h : 10 ∉ text) :
    getItem (some text) 32 = some (some (field text).1, (field text).2) := by
  unfold getItem field
  dsimp only
  cases hd : (skipLeadingWhitespaces text).dropWhile (· ≠ 32) with
  | nil => rfl
  | cons d behind =>
    dsimp only
    rw [if_neg]
    -- what is skipped to is no white space
    intro hnil
    rw [List.rdropWhile_eq_nil_iff] at hnil
    cases hs : skipLeadingWhitespaces text with
    | nil =>
      rw [hs] at hd
      cases hd
    | cons b start =>
      have hb : isBlank b = false := by
        have hskip : text.dropWhile isBlank = b :: start := hs
        have h0 := List.head_dropWhile_not isBlank (l := text) (by rw [hskip]; exact List.cons_ne_nil _ _)
        simpa only [hskip, List.head_cons, Bool.not_eq_true] using h0
      have hb32 : b ≠ 32 := by
        rintro rfl
        cases hb
      have hb10 : b ≠ 10 := by
        rintro rfl
        exact h (skip_mem (by rw [hs]; exact List.mem_cons_self))
      rw [hs, List.takeWhile_cons_of_pos (by simpa using hb32)] at hnil
      have := hnil b List.mem_cons_self
      rw [hb] at this
      simp [hb10] at this

/-- how many items can be left of a text -/
def itemsLeft : Option (List UInt8) → Nat
  | none => 0
  | some text => text.length + 1

theorem itemsLeft_field (text : List UInt8) : itemsLeft (field text).2 < itemsLeft (some text) := by
  cases h : (field text).2 with
  | none => exact Nat.succ_pos _
  | some behind => exact Nat.succ_lt_succ (field_behind h).1

/-! ## The bytes of a line in the buffer -/

/-- what `extract_hex_byte_stream` leaves of a buffer, from item `i` on -/
def Extracts (buf : List UInt8) (i : Nat) (run : List UInt8 × Option (Option (List UInt8)))
    (r : Option (Nat × Option (List UInt8) × List UInt8)) : Prop :=
  if buf.length < i + run.1.length then r = none
  else match run.2 with
    | none => ∃ str, r = some (0, str, poke buf i run.1)
    | some behind => r = some (i + run.1.length, behind, poke buf i run.1)

/-- one byte more -/
theorem Extracts.cons {buf : List UInt8} {i : Nat} {b : UInt8}
    {run : List UInt8 × Option (Option (List UInt8))} {r : Option (Nat × Option (List UInt8) × List UInt8)}
    (hi : i < buf.length) (h : Extracts (poke buf i [b]) (i + 1) run r) :
    Extracts buf i (b :: run.1, run.2) r := by
  unfold Extracts at h ⊢
  rw [poke_length buf i [b] hi, poke_cons buf b run.1 hi] at h
  dsimp only
  rw [List.length_cons, show i + (run.1.length + 1) = i + 1 + run.1.length by omega]
  exact h

theorem extractLoop_run (cfg : Config) {maxLen : Nat} {n : Nat} : ∀ {str : Option (List UInt8)}
    {buf : List UInt8} {k i : Nat}, itemsLeft str < n → (∀ text ∈ str, 10 ∉ text) → i + k = maxLen →
    i ≤ buf.length → Extracts buf i (hexRun cfg k str) (extractLoop cfg maxLen n str buf i) := by
  induction n with
  | zero => exact fun hn => absurd hn (Nat.not_lt_zero _)
  | succ n ih =>
    intro str buf k i hn hstr hk hi
    cases str with
    | none =>
      have hrun : hexRun cfg k none = ([], some none) := by cases k <;> rfl
      rw [hrun]
      show if buf.length < i then _ else _
      rw [if_neg (by omega)]
      show some (i, none, buf) = some (i, none, poke buf i [])
      rw [poke_nil]
    | some text =>
      have h10 : 10 ∉ text := hstr text rfl
      have hn' : itemsLeft (field text).2 < n := by
        have := itemsLeft_field text
        omega
      have hbehind : ∀ t ∈ (field text).2, 10 ∉ t := fun t ht hm => h10 ((field_behind ht).2 10 hm)
      unfold extractLoop
      rw [getItem_field h10]
      show Extracts buf i _ (if i < maxLen then _ else _)
      cases k with
      | zero =>
        rw [if_neg (by omega)]
        show if buf.length < i then _ else _
        rw [if_neg (by omega)]
        show some (i, (field text).2, buf) = some (i, (field text).2, poke buf i [])
        rw [poke_nil]
      | succ k =>
        rw [if_pos (by omega)]
        show Extracts buf i (if (strtoul16 cfg.ulongMax (field text).1).2 = (field text).1 then _ else _)
          (if (strtoul16 cfg.ulongMax (field text).1).2 = (field text).1 then _ else _)
        split
        · show if buf.length < i then _ else _
          rw [if_neg (by omega)]
          exact ⟨_, by rw [poke_nil]⟩
        · show Extracts buf i _ ((store buf i [_]).bind _)
          by_cases hlt : i < buf.length
          · rw [store_eq_some.mpr ⟨hlt, rfl⟩]
            refine Extracts.cons hlt (ih hn' hbehind (by omega) ?_)
            rw [poke_length buf i [_] hlt]
            exact hlt
          · rw [show store buf i [_] = none from if_neg hlt]
            show if buf.length < i + (_ :: (hexRun cfg k (field text).2).1).length then _ else _
            rw [if_pos (by rw [List.length_cons]; omega)]
            rfl

theorem extractHexByteStream_run (cfg : Config) {text : List UInt8} (h : 10 ∉ text) (buf : List UInt8)
    (maxLen : Nat) : Extracts buf 0 (hexRun cfg maxLen (some text))
      (extractHexByteStream cfg (some text) buf maxLen) :=
  extractLoop_run cfg (Nat.lt_succ_self _) (fun t ht => by rw [← Option.some.inj ht]; exact h)
    (Nat.zero_add _) (Nat.zero_le _)

theorem extractHexByteStream_none (cfg : Config) (buf : List UInt8) (maxLen : Nat) :
    extractHexByteStream cfg none buf maxLen = some (0, none, buf) := rfl

theorem hexRun_length (cfg : Config) {n : Nat} : ∀ {str : Option (List UInt8)},
    (hexRun cfg n str).1.length ≤ n := by
  induction n with
  | zero => intro str; cases str <;> exact Nat.le_refl _
  | succ n ih =>
    intro str
    cases str with
    | none => exact Nat.zero_le _
    | some text =>
      unfold hexRun
      dsimp only
      split
      · exact Nat.zero_le _
      · exact Nat.succ_le_succ ih

/-! ## `bqfs_get_cmd` -/

/-- the fields of `cmd` are those of `c`, whatever else is in the buffer -/
def Cmd.Holds (cfg : Config) (cmd : Cmd) : Command → Prop
  | .read bytes len => cmd.cmd = 82 ∧ cmd.buf.take cfg.base = bytes ∧ cmd.len = len
      ∧ cfg.base ≤ len.toNat ∧ len.toNat ≤ cfg.maxLen.toNat
  | .write bytes => cmd.cmd = 87 ∧ cmd.buf.take bytes.length = bytes ∧ cmd.len.toNat = bytes.length
      ∧ cfg.base < bytes.length ∧ bytes.length ≤ cfg.maxLen.toNat
  | .compare bytes => cmd.cmd = 67 ∧ cmd.buf.take bytes.length = bytes ∧ cmd.len.toNat = bytes.length
      ∧ cfg.base < bytes.length ∧ bytes.length ≤ cfg.maxLen.toNat
  | .delay ms => cmd.cmd = 88 ∧ cmd.delay = ms ∧ 0 < cfg.maxLen.toNat

/-- a command that cannot be executed: a length that does not fit, or no slave address -/
def Cmd.Unfit (cfg : Config) (cmd : Cmd) : Prop :=
  (cmd.cmd = 82 ∧ ¬ (cfg.base ≤ cmd.len.toNat ∧ cmd.len.toNat ≤ cfg.maxLen.toNat)) ∨ cfg.maxLen = 0

/-- what becomes of a line, as a result of the parser -/
def Parsed (cfg : Config) : Reading → Option (Int × Cmd) → Prop
  | .undefined, r => r = none ∨ ∃ cmd, r = some (1, cmd) ∧ cmd.buf.length = cfg.maxLen.toNat ∧ cmd.Unfit cfg
  | .rejected, r => ∃ cmd, r = some (-1, cmd)
  | .taken c, r => ∃ cmd, r = some (1, cmd) ∧ cmd.buf.length = cfg.maxLen.toNat ∧ cmd.Holds cfg c

theorem uint8_fits (n : Nat) : (UInt8.ofNat n).toNat = n ↔ n ≤ 255 := by
  rw [UInt8.toNat_ofNat']
  omega

theorem uint16_fits (n : Nat) : (UInt16.ofNat n).toNat = n ↔ n ≤ 65535 := by
  rw [UInt16.toNat_ofNat']
  omega

/-- the number of a text, and what C checks of it -/
theorem leading_cases (cfg : Config) (max : Nat) (text : List UInt8) :
    (leading cfg max text = none ∧ (text = (strtoul cfg.ulongMax text).2 ∨ max < (strtoul cfg.ulongMax text).1)) ∨
    (leading cfg max text = some (strtoul cfg.ulongMax text).1 ∧
      ¬ (text = (strtoul cfg.ulongMax text).2 ∨ max < (strtoul cfg.ulongMax text).1)) := by
  unfold leading
  dsimp only
  split
  · next h => exact .inl ⟨rfl, h⟩
  · next h => exact .inr ⟨rfl, h⟩

theorem take_poke (m d : List UInt8) : (poke m 0 d).take d.length = d := List.take_left' rfl

theorem base_le (cfg : Config) : 1 ≤ cfg.base ∧ cfg.base ≤ 2 := by
  unfold Config.base
  split <;> omega

theorem parse_read (cfg : Config) {cmd : Cmd} (hbuf : cmd.buf.length = cfg.maxLen.toNat)
    (hc : cmd.cmd = 82) {text : List UInt8} (h10 : 10 ∉ text) :
    Parsed cfg (readingBody cfg 82 text) (parseCmd cfg cmd (some text)) := by
  have hbase := base_le cfg
  have hrun := extractHexByteStream_run cfg h10 cmd.buf cfg.base
  unfold readingBody parseCmd
  rw [if_pos rfl, if_pos hc]
  revert hrun
  generalize hexRun cfg cfg.base (some text) = run
  obtain ⟨bytes, behind⟩ := run
  unfold Extracts
  rw [hbuf, Nat.zero_add]
  dsimp only
  intro hrun
  split at hrun
  · next hlt =>
    rw [if_pos hlt, hrun]
    exact .inl rfl
  · next hlt =>
    rw [if_neg hlt]
    have hlen : (poke cmd.buf 0 bytes).length = cfg.maxLen.toNat := by
      rw [poke_length _ _ _ (by omega), hbuf]
    cases behind with
    | none =>
      obtain ⟨str, hrun⟩ := hrun
      rw [hrun]
      show Parsed cfg .rejected (if 0 ≠ cfg.base then _ else _)
      rw [if_pos (by omega)]
      exact ⟨_, rfl⟩
    | some behind =>
      rw [show extractHexByteStream cfg (some text) cmd.buf cfg.base = some (bytes.length, behind,
        poke cmd.buf 0 bytes) from hrun]
      show Parsed cfg (if bytes.length ≠ cfg.base then _ else _) (if bytes.length ≠ cfg.base then _ else _)
      split
      · exact ⟨_, rfl⟩
      · next hb =>
        cases behind with
        | none => exact .inl rfl
        | some text' =>
          show Parsed cfg (match leading cfg 255 text' with | none => _ | some len => _)
            (some (if text' = (strtoul cfg.ulongMax text').2 ∨ _ then -1 else 1, _))
          obtain ⟨hl, hor⟩ | ⟨hl, hnot⟩ := leading_cases cfg 255 text'
          · rw [hl, if_pos (hor.imp_right fun h e => by rw [eq_comm, uint8_fits] at e; omega)]
            exact ⟨_, rfl⟩
          · obtain ⟨h1, h2⟩ := not_or.mp hnot
            have hfit := (uint8_fits (strtoul cfg.ulongMax text').1).mpr (by omega)
            rw [hl, if_neg (not_or.mpr ⟨h1, fun e => e hfit.symm⟩)]
            dsimp only
            split
            · next hok =>
              refine ⟨_, rfl, hlen, hc, ?_, rfl, ?_, ?_⟩
              · rw [← not_not.mp hb]
                exact take_poke _ _
              · rw [hfit]
                exact hok.1
              · rw [hfit]
                exact hok.2
            · next hno =>
              refine .inr ⟨_, rfl, hlen, .inl ⟨hc, ?_⟩⟩
              dsimp only
              rw [hfit]
              exact hno

theorem parse_data (cfg : Config) {cmd : Cmd} (hbuf : cmd.buf.length = cfg.maxLen.toNat)
    (hc : cmd.cmd = 87 ∨ cmd.cmd = 67) {text : List UInt8} (h10 : 10 ∉ text) :
    Parsed cfg (readingBody cfg cmd.cmd text) (parseCmd cfg cmd (some text)) := by
  have hbase := base_le cfg
  have hne : ¬ cmd.cmd = 82 := by
    intro h
    rw [h] at hc
    exact absurd hc (by decide)
  have hrun := extractHexByteStream_run cfg h10 cmd.buf cfg.maxLen.toNat
  have hle : (hexRun cfg cfg.maxLen.toNat (some text)).1.length ≤ cfg.maxLen.toNat := hexRun_length cfg
  unfold readingBody parseCmd
  rw [if_neg hne, if_neg hne, if_pos hc, if_pos hc]
  revert hrun hle
  generalize hexRun cfg cfg.maxLen.toNat (some text) = run
  obtain ⟨bytes, behind⟩ := run
  unfold Extracts
  rw [hbuf, Nat.zero_add]
  dsimp only
  intro hrun hle
  rw [if_neg (by omega)] at hrun
  cases behind with
  | none =>
    obtain ⟨str, hrun⟩ := hrun
    rw [hrun]
    have hz : (UInt8.ofNat 0).toNat < cfg.base + 1 := Nat.succ_pos _
    show Parsed cfg .rejected (some (if (UInt8.ofNat 0).toNat < cfg.base + 1 then -1 else 1, _))
    rw [if_pos hz]
    exact ⟨_, rfl⟩
  | some behind =>
    have h256 := cfg.maxLen.toNat_lt
    have hfit := (uint8_fits bytes.length).mpr (by omega)
    have hlen : (poke cmd.buf 0 bytes).length = cfg.maxLen.toNat := by
      rw [poke_length _ _ _ (by omega), hbuf]
    rw [show extractHexByteStream cfg (some text) cmd.buf cfg.maxLen.toNat = some (bytes.length, behind,
      poke cmd.buf 0 bytes) from hrun]
    show Parsed cfg (if cfg.base < bytes.length then _ else _)
      (some (if (UInt8.ofNat bytes.length).toNat < cfg.base + 1 then -1 else 1, _))
    by_cases hlt : cfg.base < bytes.length
    · have hno : ¬ (UInt8.ofNat bytes.length).toNat < cfg.base + 1 := by
        rw [hfit]
        omega
      rw [if_pos hlt, if_neg hno]
      rcases hc with hc | hc
      · rw [if_pos hc]
        exact ⟨_, rfl, hlen, hc, take_poke _ _, hfit, hlt, hle⟩
      · rw [if_neg (by rw [hc]; decide)]
        exact ⟨_, rfl, hlen, hc, take_poke _ _, hfit, hlt, hle⟩
    · have hyes : (UInt8.ofNat bytes.length).toNat < cfg.base + 1 := by
        rw [hfit]
        omega
      rw [if_neg hlt, if_pos hyes]
      exact ⟨_, rfl⟩

theorem parse_delay (cfg : Config) {cmd : Cmd} (hbuf : cmd.buf.length = cfg.maxLen.toNat)
    (hc : cmd.cmd = 88) (text : List UInt8) :
    Parsed cfg (readingBody cfg 88 text) (parseCmd cfg cmd (some text)) := by
  have hne : ∀ c, c ≠ 88 → ¬ cmd.cmd = c := fun c h e => h (e.symm.trans hc)
  unfold readingBody parseCmd
  rw [if_neg (by decide), if_neg (by decide), if_pos rfl, if_neg (hne 82 (by decide)),
    if_neg (not_or.mpr ⟨hne 87 (by decide), hne 67 (by decide)⟩), if_pos hc]
  show Parsed cfg (match leading cfg 65535 text with | none => _ | some ms => _)
    (some (if text = (strtoul cfg.ulongMax text).2
        ∨ (strtoul cfg.ulongMax text).1 ≠ (UInt16.ofNat (strtoul cfg.ulongMax text).1).toNat then -1 else 1,
      { cmd with delay := UInt16.ofNat (strtoul cfg.ulongMax text).1 }))
  obtain ⟨hl, hor⟩ | ⟨hl, hnot⟩ := leading_cases cfg 65535 text
  · rw [hl, if_pos (hor.imp_right fun h e => by rw [eq_comm, uint16_fits] at e; omega)]
    exact ⟨_, rfl⟩
  · obtain ⟨h1, h2⟩ := not_or.mp hnot
    have hfit := (uint16_fits (strtoul cfg.ulongMax text).1).mpr (by omega)
    rw [hl, if_neg (not_or.mpr ⟨h1, fun e => e hfit.symm⟩)]
    dsimp only
    split
    · next h0 => exact .inr ⟨_, rfl, hbuf, .inr h0⟩
    · next h0 =>
      refine ⟨_, rfl, hbuf, hc, rfl, Nat.pos_of_ne_zero fun e => h0 ?_⟩
      exact UInt8.toNat_inj.mp e

theorem parseCmd_reading (cfg : Config) (cmd : Cmd) (hbuf : cmd.buf.length = cfg.maxLen.toNat)
    {text : List UInt8} (h10 : 10 ∉ text) :
    Parsed cfg (readingBody cfg cmd.cmd text) (parseCmd cfg cmd (some text)) := by
  by_cases hr : cmd.cmd = 82
  · rw [hr]
    exact parse_read cfg hbuf hr h10
  · by_cases hd : cmd.cmd = 87 ∨ cmd.cmd = 67
    · exact parse_data cfg hbuf hd h10
    · by_cases hx : cmd.cmd = 88
      · rw [hx]
        exact parse_delay cfg hbuf hx text
      · unfold readingBody parseCmd
        rw [if_neg hr, if_neg hd, if_neg hx, if_neg hr, if_neg hd, if_neg hx]
        exact ⟨_, rfl⟩

/-- a letter with no colon behind it -/
theorem parseCmd_none (cfg : Config) (cmd : Cmd) :
    Parsed cfg (if cmd.cmd = 88 then .undefined else .rejected) (parseCmd cfg cmd none) := by
  have hbase := base_le cfg
  unfold parseCmd
  by_cases hr : cmd.cmd = 82
  · rw [if_pos hr, hr, if_neg (by decide), extractHexByteStream_none]
    show Parsed cfg .rejected (if 0 ≠ cfg.base then _ else _)
    rw [if_pos (by omega)]
    exact ⟨_, rfl⟩
  · by_cases hd : cmd.cmd = 87 ∨ cmd.cmd = 67
    · have hx : ¬ cmd.cmd = 88 := by
        intro h
        rw [h] at hd
        exact absurd hd (by decide)
      rw [if_neg hr, if_pos hd, if_neg hx, extractHexByteStream_none]
      have hz : (UInt8.ofNat 0).toNat < cfg.base + 1 := Nat.succ_pos _
      show Parsed cfg .rejected (some (if (UInt8.ofNat 0).toNat < cfg.base + 1 then -1 else 1, _))
      rw [if_pos hz]
      exact ⟨_, rfl⟩
    · rw [if_neg hr, if_neg hd]
      by_cases hx : cmd.cmd = 88
      · rw [if_pos hx, if_pos hx]
        exact .inl rfl
      · rw [if_neg hx, if_neg hx]
        exact ⟨_, rfl⟩

theorem parseLine_reading (cfg : Config) {cmd : Cmd} (hbuf : cmd.buf.length = cfg.maxLen.toNat)
    {line : List UInt8} (h10 : 10 ∉ line) :
    Parsed cfg (reading cfg line) (parseLine cfg cmd (line.takeWhile (· ≠ 0))) := by
  unfold reading parseLine getItem
  dsimp only
  have hstart : ∀ c ∈ skipLeadingWhitespaces (line.takeWhile (· ≠ 0)), c ∈ line := fun c hc =>
    (List.takeWhile_sublist _).subset (skip_mem hc)
  revert hstart
  generalize skipLeadingWhitespaces (line.takeWhile (· ≠ 0)) = start
  intro hstart
  cases hd : start.dropWhile (· ≠ 58) with
  | nil =>
    match start with
    | [] => exact ⟨_, rfl⟩
    | [t] => exact parseCmd_none cfg { cmd with cmd := toupper t }
    | _ :: _ :: _ => exact ⟨_, rfl⟩
  | cons d text =>
    have h10' : 10 ∉ text := by
      intro hm
      refine h10 (hstart 10 ((List.dropWhile_sublist (· ≠ 58)).subset ?_))
      rw [hd]
      exact List.mem_cons_of_mem d hm
    dsimp only
    generalize (start.takeWhile (· ≠ 58)).rdropWhile (fun c => isBlank c || c = 10) = tok
    match tok with
    | [] => exact .inl rfl
    | [t] => exact parseCmd_reading cfg { cmd with cmd := toupper t } hbuf h10'
    | _ :: _ :: _ => exact ⟨_, rfl⟩

end Bqtool
