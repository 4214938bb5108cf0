import Firmware.Bqtool.Execute
import Firmware.Bqtool.Lines

/-!
# bqtool: a whole bqfs file

`bqfs_flash` goes through the lines of the file one by one.

* `Flash`           what it may do with the lines that are left;
* `bqfsFlash_flash` the code does no more than that;
* `Flashed`         all lines were complete commands and succeeded, or 0 is returned;
* `Sound`           the files and gauges for which this is so;
* `bqfsFlash_iff`   and there are no others.
-/

set_option linter.unusedVariables false

namespace Bqtool
open Img

section
variable {σ : Type} (bus : Bus σ) (cfg : Config) (reset : UInt8 → σ → σ) (alloc : Alloc) (error : Bool)

/-- the results from line `k` on -/
inductive Flash : Nat → List (List UInt8) → σ → Option (Int × σ) → Prop
  | ended (k : Nat) (st : σ) (addr : UInt8) : Flash k [] st (some (1, reset addr st))
  | cut (k : Nat) (st : σ) (he : error = true) : Flash k [] st none
  | gone {k : Nat} {l : List UInt8} (ls : List (List UInt8)) (st : σ) (hl : cfg.maxLineLen ≤ l.length)
      (ha : alloc k = false) : Flash k (l :: ls) st none
  | tooLong {k : Nat} {l : List UInt8} (ls : List (List UInt8)) (st : σ) (addr : UInt8)
      (hl : cfg.maxLineLen * 2 ≤ l.length) (ha : alloc k = true) :
      Flash k (l :: ls) st (some (1, reset addr st))
  | comment {k : Nat} {l : List UInt8} {ls : List (List UInt8)} {st : σ} {r : Option (Int × σ)}
      (hl : Fits alloc cfg k l) (hc : isComment l = true) (h : Flash (k + 1) ls st r) : Flash k (l :: ls) st r
  | undefined {k : Nat} {l : List UInt8} (ls : List (List UInt8)) (st : σ) (hl : Fits alloc cfg k l)
      (hc : isComment l = false) (hr : reading cfg l = .undefined) : Flash k (l :: ls) st none
  | rejected {k : Nat} {l : List UInt8} (ls : List (List UInt8)) (st : σ) (addr : UInt8)
      (hl : Fits alloc cfg k l) (hc : isComment l = false) (hr : reading cfg l = .rejected) :
      Flash k (l :: ls) st (some (0, reset addr st))
  | failed {k : Nat} {l : List UInt8} (ls : List (List UInt8)) {st st' : σ} {c : Command}
      (hl : Fits alloc cfg k l) (hc : isComment l = false) (hr : reading cfg l = .taken c)
      (ht : c.tries bus cfg 3 st = (false, st')) : Flash k (l :: ls) st (some (-1, st'))
  | taken {k : Nat} {l : List UInt8} {ls : List (List UInt8)} {st st' : σ} {c : Command}
      {r : Option (Int × σ)} (hl : Fits alloc cfg k l) (hc : isComment l = false)
      (hr : reading cfg l = .taken c) (ht : c.tries bus cfg 3 st = (true, st'))
      (h : Flash (k + 1) ls st' r) : Flash k (l :: ls) st r

end

/-! ## The code goes through the lines -/

section
variable {σ : Type} {bus : Bus σ} {cfg : Config} {reset : UInt8 → σ → σ} {alloc : Alloc} {error : Bool}

/-- from a call of `read_line` on: `m` bounds the comments, `n` the commands -/
def flashFrom (bus : Bus σ) (cfg : Config) (reset : UInt8 → σ → σ) (alloc : Alloc) (m n : Nat)
    (file : File) (cmd : Cmd) (link : Link σ) : Option (Int × σ) := do
  let r ← (do
    let (ret, file, cmd) ← (do
      match ← nextLine alloc cfg m file with
      | (none, file) => some (0, file, cmd)
      | (some buf, file) => do
        let (ret, cmd) ← parseLine cfg cmd buf
        some (ret, file, cmd))
    if 0 < ret then do
      let (ok, link, cmd) ← execTries bus cfg 3 link cmd
      if ok then flashLoop bus cfg reset alloc n file cmd link else some (-1, file, link.dev)
    else some (if ret = 0 then 1 else 0, file, reset link.slaveAddr link.dev))
  flashEnd r

theorem flashLoop_from (n : Nat) (file : File) (cmd : Cmd) (link : Link σ) :
    (flashLoop bus cfg reset alloc (n + 1) file cmd link).bind flashEnd
      = flashFrom bus cfg reset alloc (file.bytes.length + 1) n file cmd link := rfl

theorem nextLine_gone {file : File} (h : file.moved = true) (m : Nat) : nextLine alloc cfg m file = none := by
  cases m with
  | zero => rfl
  | succ m =>
    unfold nextLine
    rw [readLine_moved h]
    rfl

/-- once the buffer is gone, the next call or the end finds out -/
theorem flashLoop_gone {file : File} (h : file.moved = true) (n : Nat) (cmd : Cmd) (link : Link σ) :
    (flashLoop bus cfg reset alloc n file cmd link).bind flashEnd = none := by
  cases n with
  | zero => rfl
  | succ n =>
    rw [flashLoop_from]
    unfold flashFrom
    rw [nextLine_gone h]
    rfl

theorem flashEnd_gone {file : File} (h : file.moved = true) (ret : Int) (st : σ) :
    flashEnd (ret, file, st) = none := if_pos h

theorem flashEnd_valid {file : File} (h : file.moved = false) (ret : Int) (st : σ) :
    flashEnd (ret, file, st) = some (ret, st) := if_neg (by rw [h]; decide)

/-- the rest of the loop, once a line has been read -/
def flashLine (bus : Bus σ) (cfg : Config) (reset : UInt8 → σ → σ) (alloc : Alloc) (n : Nat)
    (file : File) (cmd : Cmd) (link : Link σ) (line : List UInt8) : Option (Int × σ) := do
  let (ret, cmd) ← parseLine cfg cmd line
  if 0 < ret then do
    let (ok, link, cmd) ← execTries bus cfg 3 link cmd
    if ok then (flashLoop bus cfg reset alloc n file cmd link).bind flashEnd
    else flashEnd (-1, file, link.dev)
  else flashEnd (if ret = 0 then 1 else 0, file, reset link.slaveAddr link.dev)

variable {file file' : File} {buf : List UInt8} {m n : Nat} {cmd : Cmd} {link : Link σ}

theorem flashFrom_null (hr : readLine alloc cfg file = some (none, file')) :
    flashFrom bus cfg reset alloc (m + 1) n file cmd link
      = flashEnd (1, file', reset link.slaveAddr link.dev) := by
  unfold flashFrom nextLine
  rw [hr]
  rfl

theorem flashFrom_comment (hr : readLine alloc cfg file = some (some buf, file'))
    (hc : buf.head? = some 59) : flashFrom bus cfg reset alloc (m + 1) n file cmd link
      = flashFrom bus cfg reset alloc m n file' cmd link := by
  unfold flashFrom
  rw [show nextLine alloc cfg (m + 1) file = nextLine alloc cfg m file' by
    conv_lhs => unfold nextLine
    rw [hr]
    exact if_pos hc]

theorem flashFrom_line (hr : readLine alloc cfg file = some (some buf, file'))
    (hc : buf.head? ≠ some 59) : flashFrom bus cfg reset alloc (m + 1) n file cmd link
      = flashLine bus cfg reset alloc n file' cmd link buf := by
  have hnext : nextLine alloc cfg (m + 1) file = some (some buf, file') := by
    unfold nextLine
    rw [hr]
    exact if_neg hc
  unfold flashFrom flashLine
  rw [hnext]
  dsimp only [Option.bind_some, Option.bind_eq_bind]
  cases parseLine cfg cmd buf with
  | none => rfl
  | some p =>
    obtain ⟨ret, cmd'⟩ := p
    dsimp only [Option.bind_some]
    split
    · cases execTries bus cfg 3 link cmd' with
      | none => rfl
      | some q =>
        obtain ⟨ok, link', cmd''⟩ := q
        cases ok <;> rfl
    · rfl

/-! ### A line -/

/-- behind a line that is rejected -/
theorem flashLine_rejected (h : ∃ cmd', parseLine cfg cmd buf = some (-1, cmd')) :
    flashLine bus cfg reset alloc n file cmd link buf
      = flashEnd (0, file, reset link.slaveAddr link.dev) := by
  obtain ⟨cmd', h⟩ := h
  unfold flashLine
  rw [h]
  rfl

theorem flashLine_parsed {cmd' : Cmd} (h : parseLine cfg cmd buf = some (1, cmd')) :
    flashLine bus cfg reset alloc n file cmd link buf = (do
      let (ok, link, cmd) ← execTries bus cfg 3 link cmd'
      if ok then (flashLoop bus cfg reset alloc n file cmd link).bind flashEnd
      else flashEnd (-1, file, link.dev)) := by
  unfold flashLine
  rw [h]
  rfl

/-- whatever is in a line that did not fit, the buffer is gone -/
theorem flashLine_gone (h : file.moved = true) :
    flashLine bus cfg reset alloc n file cmd link buf = none := by
  unfold flashLine
  cases parseLine cfg cmd buf with
  | none => rfl
  | some p =>
    obtain ⟨ret, cmd'⟩ := p
    dsimp only [Option.bind_some, Option.bind_eq_bind]
    split
    · cases execTries bus cfg 3 link cmd' with
      | none => rfl
      | some q =>
        obtain ⟨ok, link', cmd''⟩ := q
        cases ok with
        | true => exact flashLoop_gone h n cmd'' link'
        | false => exact flashEnd_gone h _ _
    · exact flashEnd_gone h _ _

/-- a line that is not a comment, and the lines behind it -/
theorem flashLine_flash {k : Nat} {l : List UInt8} {ls : List (List UInt8)}
    (hbuf : cmd.buf.length = cfg.maxLen.toNat) (hvalid : file.moved = false) (h10 : 10 ∉ l)
    (hl : Fits alloc cfg k l) (hc : isComment l = false)
    (ih : ∀ (cmd : Cmd) (link : Link σ), cmd.buf.length = cfg.maxLen.toNat →
      Flash bus cfg reset alloc error (k + 1) ls link.dev
        ((flashLoop bus cfg reset alloc n file cmd link).bind flashEnd)) :
    Flash bus cfg reset alloc error k (l :: ls) link.dev
      (flashLine bus cfg reset alloc n file cmd link (l.takeWhile (· ≠ 0))) := by
  have hp := parseLine_reading cfg hbuf h10
  cases hr : reading cfg l with
  | undefined =>
    rw [hr] at hp
    have hnone : flashLine bus cfg reset alloc n file cmd link (l.takeWhile (· ≠ 0)) = none := by
      rcases hp with hp | ⟨cmd', hp, hbuf', hunfit⟩
      · unfold flashLine
        rw [hp]
        rfl
      · rw [flashLine_parsed hp, execTries_unfit bus link 2 hbuf' hunfit]
        rfl
    rw [hnone]
    exact .undefined ls link.dev hl hc hr
  | rejected =>
    rw [hr] at hp
    rw [flashLine_rejected hp, flashEnd_valid hvalid]
    exact .rejected ls link.dev _ hl hc hr
  | taken c =>
    rw [hr] at hp
    obtain ⟨cmd', hp, hbuf', hholds⟩ := hp
    obtain ⟨addr, cmd'', he, hbuf''⟩ := execTries_holds bus (n := 3) link hbuf' hholds
    rw [flashLine_parsed hp, he]
    revert he
    generalize ht : c.tries bus cfg 3 link.dev = t
    obtain ⟨ok, st⟩ := t
    intro _
    cases ok with
    | true => exact .taken hl hc hr ht (ih cmd'' ⟨st, addr⟩ hbuf'')
    | false =>
      show Flash bus cfg reset alloc error k (l :: ls) link.dev (flashEnd (-1, file, st))
      rw [flashEnd_valid hvalid]
      exact .failed ls hl hc hr ht

theorem isComment_takeWhile (l : List UInt8) :
    (l.takeWhile (· ≠ 0)).head? = some 59 ↔ isComment l = true := by
  cases l with
  | nil => simp [isComment]
  | cons c l =>
    by_cases hc : c = 0
    · subst hc
      simp [isComment]
    · rw [List.takeWhile_cons_of_pos (by simpa using hc)]
      simp [isComment]

/-! ### All of the lines -/

theorem flashFrom_flash (ls : List (List UInt8)) : ∀ {k m n : Nat} {file : File} (cmd : Cmd) (link : Link σ),
    Ahead error k ls file → cmd.buf.length = cfg.maxLen.toNat → file.bytes.length < m →
    file.bytes.length ≤ n →
    Flash bus cfg reset alloc error k ls link.dev (flashFrom bus cfg reset alloc m n file cmd link) := by
  induction ls with
  | nil =>
    intro k m n file cmd link h hbuf hm hn
    obtain ⟨m, rfl⟩ : ∃ j, m = j + 1 := ⟨m - 1, by omega⟩
    obtain ⟨file', hr, hmoved⟩ := readLine_end alloc cfg h
    rw [flashFrom_null hr]
    cases hv : file'.moved with
    | true =>
      rw [flashEnd_gone hv]
      refine .cut k link.dev ?_
      cases error with
      | true => rfl
      | false => exact absurd (hmoved rfl) (by rw [hv]; decide)
    | false =>
      rw [flashEnd_valid hv]
      exact .ended k link.dev _
  | cons l ls ih =>
    intro k m n file cmd link h hbuf hm hn
    obtain ⟨m, rfl⟩ : ∃ j, m = j + 1 := ⟨m - 1, by omega⟩
    by_cases hl : Fits alloc cfg k l
    · obtain ⟨file', hr, h', hlt⟩ := readLine_fits h hl
      cases hc : isComment l with
      | true =>
        rw [flashFrom_comment hr ((isComment_takeWhile l).mpr hc)]
        exact .comment hl hc (ih cmd link h' hbuf (by omega) (by omega))
      | false =>
        rw [flashFrom_line hr (fun e => by rw [(isComment_takeWhile l).mp e] at hc; cases hc)]
        refine flashLine_flash hbuf h'.valid h.head.2 hl hc fun cmd' link' hbuf' => ?_
        obtain ⟨n, rfl⟩ : ∃ j, n = j + 1 := ⟨n - 1, by omega⟩
        rw [flashLoop_from]
        exact ih cmd' link' h' hbuf' (by omega) (by omega)
    · cases ha : alloc k with
      | false =>
        have hlen : cfg.maxLineLen ≤ l.length := Nat.le_of_not_lt fun hlt => hl (.inl hlt)
        obtain ⟨o, file', hr, hgone⟩ := readLine_gone h hlen ha
        have hnone : flashFrom bus cfg reset alloc (m + 1) n file cmd link = none := by
          cases o with
          | none => rw [flashFrom_null hr, flashEnd_gone hgone]
          | some buf =>
            by_cases hc : buf.head? = some 59
            · rw [flashFrom_comment hr hc]
              unfold flashFrom
              rw [nextLine_gone hgone]
              rfl
            · rw [flashFrom_line hr hc, flashLine_gone hgone]
        rw [hnone]
        exact .gone ls link.dev hlen ha
      | true =>
        have hlen : cfg.maxLineLen * 2 ≤ l.length := Nat.le_of_not_lt fun hlt => hl (.inr ⟨hlt, ha⟩)
        obtain ⟨file', hr, hvalid⟩ := readLine_tooLong h hlen ha
        rw [flashFrom_null hr, flashEnd_valid hvalid]
        exact .tooLong ls link.dev _ hlen ha

/-- **The code** does with a file what `Flash` allows. -/
theorem bqfsFlash_flash (input : Input) (buf : Vector UInt8 cfg.maxLen.toNat) (link : Link σ) :
    Flash bus cfg reset alloc input.error 0 (lines input) link.dev
      (bqfsFlash bus cfg reset alloc input buf link) :=
  flashFrom_flash (lines input) ⟨0, 0, 0, buf.toList⟩ link ⟨rfl, rfl, rfl, rfl⟩ buf.length_toList
    (Nat.lt_succ_self _) (Nat.le_refl _)

end

/-! ## What should come of a file -/

section
variable {σ : Type} (bus : Bus σ) (cfg : Config) (reset : UInt8 → σ → σ) (alloc : Alloc)

/-- commands in a row, up to one that fails three times -/
def runAll : List Command → σ → Bool × σ
  | [], st => (true, st)
  | c :: cmds, st =>
    let (ok, st) := c.tries bus cfg 3 st
    if ok then runAll cmds st else (false, st)

def commandsOf (ls : List (List UInt8)) : List (List UInt8) := ls.filter fun l => !isComment l

/-- 1 for a file of complete commands that succeed one after the other, or 0; and what was done with the
gauge is what is in the lines so far, each taken for itself -/
def Flashed (input : Input) (st : σ) (r : Option (Int × σ)) : Prop :=
  ∃ ret st', r = some (ret, st') ∧ (ret = 1 ∨ ret = 0) ∧ ∃ (pre : List (List UInt8)) (cmds : List Command)
    (addr : UInt8) (st'' : σ), pre <+: commandsOf (lines input) ∧
    pre.map (reading cfg) = cmds.map .taken ∧ runAll bus cfg cmds st = (true, st'') ∧ st' = reset addr st'' ∧
    (ret = 1 → input.error = false ∧ (∀ l ∈ lines input, l.length < cfg.maxLineLen * 2) ∧
      (commandsOf (lines input)).map (strict cfg) = cmds.map some)

/-- the lines from `k` on: no line moves the buffer or is too long, none is left open, and no command fails
three times, up to a line that is rejected; if there is none, there is no read error, and the lines are
complete as they are taken.  `P` says that those before are. -/
def Sound (error : Bool) : Nat → List (List UInt8) → σ → Prop → Prop
  | _, [], _, P => error = false ∧ P
  | k, l :: ls, st, P =>
    Fits alloc cfg k l ∧
    if isComment l then Sound error (k + 1) ls st P
    else
      match reading cfg l with
      | .undefined => False
      | .rejected => True
      | .taken c => (c.tries bus cfg 3 st).1 = true ∧
          Sound error (k + 1) ls (c.tries bus cfg 3 st).2 (P ∧ strict cfg l = some c)

end

section
variable {σ : Type} {bus : Bus σ} {cfg : Config} {reset : UInt8 → σ → σ} {alloc : Alloc} {error : Bool}

/-- the answer alone -/
def Answers (cfg : Config) (error : Bool) (P : Prop) (ls : List (List UInt8)) (r : Option (Int × σ)) : Prop :=
  ∃ ret st', r = some (ret, st') ∧ (ret = 1 ∨ ret = 0) ∧ (ret = 1 → P ∧ error = false ∧
    (∀ l ∈ ls, l.length < cfg.maxLineLen * 2) ∧
    ∀ l ∈ commandsOf ls, ∃ c, reading cfg l = .taken c ∧ strict cfg l = some c)

theorem Fits.short {k : Nat} {l : List UInt8} (h : Fits alloc cfg k l) : l.length < cfg.maxLineLen * 2 := by
  have hpos := maxLineLen_pos cfg
  rcases h with h | h
  · omega
  · exact h.1

theorem commandsOf_comment {l : List UInt8} (h : isComment l = true) (ls : List (List UInt8)) :
    commandsOf (l :: ls) = commandsOf ls := List.filter_cons_of_neg (by simp [h])

theorem commandsOf_command {l : List UInt8} (h : isComment l = false) (ls : List (List UInt8)) :
    commandsOf (l :: ls) = l :: commandsOf ls := List.filter_cons_of_pos (by simp [h])

theorem answers_none (P : Prop) (ls : List (List UInt8)) :
    ¬ Answers cfg error P ls (none : Option (Int × σ)) := by
  rintro ⟨ret, st', hr, -⟩
  cases hr

theorem Flash.answers_iff {k : Nat} {ls : List (List UInt8)} {st : σ} {r : Option (Int × σ)}
    (h : Flash bus cfg reset alloc error k ls st r) :
    ∀ P : Prop, Answers cfg error P ls r ↔ Sound bus cfg alloc error k ls st P := by
  induction h with
  | ended k st addr =>
    intro P
    constructor
    · rintro ⟨ret, st', hr, -, hone⟩
      obtain ⟨rfl, rfl⟩ := Prod.mk.inj (Option.some.inj hr)
      exact ⟨(hone rfl).2.1, (hone rfl).1⟩
    · rintro ⟨he, hp⟩
      exact ⟨1, _, rfl, .inl rfl, fun _ => ⟨hp, he, by simp, by simp [commandsOf]⟩⟩
  | cut k st he =>
    exact fun P => ⟨fun h => absurd h (answers_none P _), fun h => by rw [he] at h; exact nomatch h.1⟩
  | @gone k l ls st hl ha =>
    refine fun P => ⟨fun h => absurd h (answers_none P _), fun h => ?_⟩
    rcases h.1 with h | h
    · omega
    · rw [ha] at h
      exact nomatch h.2
  | @tooLong k l ls st addr hl ha =>
    intro P
    constructor
    · rintro ⟨ret, st', hr, -, hone⟩
      obtain ⟨rfl, rfl⟩ := Prod.mk.inj (Option.some.inj hr)
      have := (hone rfl).2.2.1 l List.mem_cons_self
      omega
    · intro h
      have := h.1.short
      omega
  | @comment k l ls st r hl hc h ih =>
    intro P
    have hs : Sound bus cfg alloc error k (l :: ls) st P ↔ Sound bus cfg alloc error (k + 1) ls st P := by
      show (Fits alloc cfg k l ∧ if isComment l then _ else _) ↔ _
      rw [if_pos hc]
      exact and_iff_right hl
    rw [hs, ← ih P]
    unfold Answers
    rw [commandsOf_comment hc]
    simp only [List.forall_mem_cons, hl.short, true_and]
  | @undefined k l ls st hl hc hr =>
    refine fun P => ⟨fun h => absurd h (answers_none P _), fun h => ?_⟩
    have h2 := h.2
    rw [if_neg (by rw [hc]; decide), hr] at h2
    exact h2.elim
  | @rejected k l ls st addr hl hc hr =>
    refine fun P => ⟨fun _ => ⟨hl, ?_⟩, fun _ => ⟨0, _, rfl, .inr rfl, fun h => nomatch h⟩⟩
    rw [if_neg (by rw [hc]; decide), hr]
    trivial
  | @failed k l ls st st' c hl hc hr ht =>
    intro P
    constructor
    · rintro ⟨ret, st'', hret, hor, -⟩
      obtain ⟨rfl, -⟩ := Prod.mk.inj (Option.some.inj hret)
      rcases hor with hor | hor <;> cases hor
    · intro h
      have h2 := h.2
      rw [if_neg (by rw [hc]; decide), hr] at h2
      have h3 := h2.1
      rw [ht] at h3
      cases h3
  | @taken k l ls st st' c r hl hc hr ht h ih =>
    intro P
    have hs : Sound bus cfg alloc error k (l :: ls) st P
        ↔ Sound bus cfg alloc error (k + 1) ls st' (P ∧ strict cfg l = some c) := by
      show (Fits alloc cfg k l ∧ if isComment l then _ else match reading cfg l with
        | .undefined => _ | .rejected => _ | .taken c => _) ↔ _
      rw [if_neg (by rw [hc]; decide), hr]
      dsimp only
      rw [ht]
      simp [hl]
    have hone : (∃ c', reading cfg l = .taken c' ∧ strict cfg l = some c') ↔ strict cfg l = some c := by
      rw [hr]
      simp
    rw [hs, ← ih]
    unfold Answers
    rw [commandsOf_command hc]
    simp only [List.forall_mem_cons, hl.short, true_and, hone]
    refine exists_congr fun ret => exists_congr fun st'' => and_congr_right fun _ => and_congr_right fun _ =>
      imp_congr_right fun _ => ?_
    tauto

/-- what was done with the gauge is in the lines, each taken for itself -/
theorem Flash.traces {k : Nat} {ls : List (List UInt8)} {st : σ} {r : Option (Int × σ)}
    (h : Flash bus cfg reset alloc error k ls st r) : ∀ ret st', r = some (ret, st') → ret ≠ -1 →
    ∃ pre cmds addr st'', pre <+: commandsOf ls ∧ pre.map (reading cfg) = cmds.map .taken ∧
      runAll bus cfg cmds st = (true, st'') ∧ st' = reset addr st'' ∧
      (ret = 1 → (∀ l ∈ ls, l.length < cfg.maxLineLen * 2) → pre = commandsOf ls) := by
  induction h with
  | ended k st addr =>
    intro ret st' hr _
    obtain ⟨rfl, rfl⟩ := Prod.mk.inj (Option.some.inj hr)
    exact ⟨[], [], addr, st, List.nil_prefix, rfl, rfl, rfl, fun _ _ => rfl⟩
  | cut => exact fun ret st' hr => nomatch hr
  | gone => exact fun ret st' hr => nomatch hr
  | @tooLong k l ls st addr hl ha =>
    intro ret st' hr _
    obtain ⟨rfl, rfl⟩ := Prod.mk.inj (Option.some.inj hr)
    refine ⟨[], [], addr, st, List.nil_prefix, rfl, rfl, rfl, fun _ hshort => ?_⟩
    have := hshort l List.mem_cons_self
    omega
  | @comment k l ls st r hl hc h ih =>
    intro ret st' hr hne
    obtain ⟨pre, cmds, addr, st'', h1, h2, h3, h4, h5⟩ := ih ret st' hr hne
    rw [commandsOf_comment hc]
    exact ⟨pre, cmds, addr, st'', h1, h2, h3, h4, fun e hs => h5 e fun l' hl' => hs l' (List.mem_cons_of_mem l hl')⟩
  | undefined => exact fun ret st' hr => nomatch hr
  | @rejected k l ls st addr hl hc hr =>
    intro ret st' hret _
    obtain ⟨rfl, rfl⟩ := Prod.mk.inj (Option.some.inj hret)
    exact ⟨[], [], addr, st, List.nil_prefix, rfl, rfl, rfl, fun e => nomatch e⟩
  | @failed k l ls st st' c hl hc hr ht =>
    intro ret st'' hret hne
    exact absurd (Prod.mk.inj (Option.some.inj hret)).1.symm hne
  | @taken k l ls st st' c r hl hc hr ht h ih =>
    intro ret st₁ hret hne
    obtain ⟨pre, cmds, addr, st'', h1, h2, h3, h4, h5⟩ := ih ret st₁ hret hne
    rw [commandsOf_command hc]
    refine ⟨l :: pre, c :: cmds, addr, st'', ?_, ?_, ?_, h4, fun e hs => ?_⟩
    · exact (List.prefix_cons_inj l).mpr h1
    · rw [List.map_cons, List.map_cons, hr, h2]
    · unfold runAll
      rw [ht]
      exact h3
    · rw [h5 e fun l' hl' => hs l' (List.mem_cons_of_mem l hl')]

theorem map_strict_iff {ls : List (List UInt8)} : ∀ {cmds : List Command},
    ls.map (reading cfg) = cmds.map .taken → (ls.map (strict cfg) = cmds.map some ↔
      ∀ l ∈ ls, ∃ c, reading cfg l = .taken c ∧ strict cfg l = some c) := by
  induction ls with
  | nil =>
    intro cmds h
    rw [List.map_eq_nil_iff.mp h.symm]
    simp
  | cons l ls ih =>
    intro cmds h
    cases cmds with
    | nil => cases h
    | cons c cmds =>
      obtain ⟨hc, hcs⟩ := List.cons.inj h
      rw [List.map_cons, List.map_cons, List.cons.injEq, ih hcs, List.forall_mem_cons, hc]
      simp

end

/-- **A bqfs file**: every line was a complete command and succeeded, or 0 is returned, exactly for the
files and gauges that are sound. -/
theorem bqfsFlash_iff {σ : Type} (bus : Bus σ) (cfg : Config) (reset : UInt8 → σ → σ) (alloc : Alloc)
    (input : Input) (buf : Vector UInt8 cfg.maxLen.toNat) (link : Link σ) :
    Flashed bus cfg reset input link.dev (bqfsFlash bus cfg reset alloc input buf link) ↔
      Sound bus cfg alloc input.error 0 (lines input) link.dev True := by
  have hf : Flash bus cfg reset alloc input.error 0 (lines input) link.dev
      (bqfsFlash bus cfg reset alloc input buf link) := bqfsFlash_flash input buf link
  rw [← hf.answers_iff True]
  constructor
  · rintro ⟨ret, st', hr, hor, pre, cmds, addr, st'', hpre, hread, hrun, hst, hone⟩
    refine ⟨ret, st', hr, hor, fun e => ?_⟩
    obtain ⟨herr, hshort, hstrict⟩ := hone e
    have h1 := congrArg List.length hread
    have h2 := congrArg List.length hstrict
    simp only [List.length_map] at h1 h2
    obtain rfl := hpre.eq_of_length (h1.trans h2.symm)
    exact ⟨trivial, herr, hshort, (map_strict_iff hread).mp hstrict⟩
  · rintro ⟨ret, st', hr, hor, hone⟩
    have hne : ret ≠ -1 := by rcases hor with h | h <;> rw [h] <;> decide
    obtain ⟨pre, cmds, addr, st'', hpre, hread, hrun, hst, hall⟩ := hf.traces ret st' hr hne
    refine ⟨ret, st', hr, hor, pre, cmds, addr, st'', hpre, hread, hrun, hst, fun e => ?_⟩
    obtain ⟨-, herr, hshort, hstrict⟩ := hone e
    obtain rfl := hall e hshort
    exact ⟨herr, hshort, (map_strict_iff hread).mpr hstrict⟩

/-- a gauge of which no operation fails, and that has nothing in it -/
def takesAll : Bus Unit :=
  ⟨fun _ _ _ len => (true, Vector.replicate len.toNat 0, ()), fun _ _ _ => (true, ()), fun _ _ => ()⟩

/-- `W:AA 00 01 02` with a buffer for three bytes: the fourth one is left out, and 1 is returned -/
theorem bqfsFlash_overfull : ¬ Flashed takesAll ⟨.I2C, 1, 4294967295⟩ (fun _ st => st)
    ⟨[87, 58, 65, 65, 32, 48, 48, 32, 48, 49, 32, 48, 50, 10], false⟩ ()
    (bqfsFlash takesAll ⟨.I2C, 1, 4294967295⟩ (fun _ st => st) (fun _ => true)
      ⟨[87, 58, 65, 65, 32, 48, 48, 32, 48, 49, 32, 48, 50, 10], false⟩ (Vector.replicate _ 0) ⟨(), 170⟩) := by
  rintro ⟨ret, st', hr, -, pre, cmds, addr, st'', -, -, -, -, hone⟩
  have h1 : ret = 1 := (Prod.mk.inj (Option.some.inj hr)).1.symm
  have hstrict := (hone h1).2.2
  cases cmds with
  | nil => cases hstrict
  | cons c cmds => exact nomatch (List.cons.inj hstrict).1

end Bqtool
