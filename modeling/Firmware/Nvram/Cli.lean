import Firmware.Nvram.Header

/-!
# nvram: the command line

`main` of `cli.c` looks at its arguments twice: `preScan` decides whether the NVRAM is opened for
writing and committed, `execLoop` runs the commands.

* `execLoop_eq`     the second loop never leaves the arguments, and performs `commands`;
* `scansAgree_iff`  when the first loop is safe too, and announces a write exactly when there is
                    one.

`none` is a use of `argv[i]` with `argc ≤ i`.
-/

set_option linter.unusedVariables false

namespace Nvram.Cli
open CStr

variable {host : Host}

/-! ## the commands -/

def argShow : CStr := lit ['s', 'h', 'o', 'w'] (by decide)
def argInfo : CStr := lit ['i', 'n', 'f', 'o'] (by decide)
def argGet : CStr := lit ['g', 'e', 't'] (by decide)
def argSet : CStr := lit ['s', 'e', 't'] (by decide)
def argUnset : CStr := lit ['u', 'n', 's', 'e', 't'] (by decide)
def argCommit : CStr := lit ['c', 'o', 'm', 'm', 'i', 't'] (by decide)

/-- what goes to `stdout`; the texts around the numbers of `info` are left out, and `info none`
reads outside the mapping -/
inductive Output where
  | line (text : List UInt8)
  | info (i : Option Info)

/-- `printf` of a NULL prints `(null)` -/
def showValue : Option CStr → List UInt8
  | some v => v.bytes
  | none => ascii ['(', 'n', 'u', 'l', 'l', ')']

/-- `nvram show`: the exit status and the output -/
def doShow (h : Handle host) : Int × List Output :=
  match nvramGetall h with
  | [] => (1, [])
  | ts => (0, ts.map fun t => .line (t.1.bytes ++ (eqSign :: showValue t.2) ++ [10]))

/-- `nvram get` -/
def doGet (h : Handle host) (var : CStr) : Int × List Output :=
  match nvramGet h var with
  | some val => (0, [.line (val.bytes ++ [10])])
  | none => (1, [])

/-- `nvram unset` -/
def doUnset (h : Handle host) (var : CStr) : Int × Handle host := nvramUnset h var

/-- the argument of `nvram set`, cut at its first `=` -/
def cutPair (pair : CStr) : Option (CStr × CStr) :=
  if eqSign ∈ pair.bytes then
    some (⟨pair.bytes.takeWhile (· ≠ eqSign), fun hm => pair.nul_free
        ((List.takeWhile_prefix _).subset hm)⟩,
      ⟨(pair.bytes.dropWhile (· ≠ eqSign)).tail, fun hm => pair.nul_free
        ((List.dropWhile_suffix _).subset (List.mem_of_mem_tail hm))⟩)
  else none

/-- `nvram set` -/
def doSet (mem : Mem) (h : Handle host) (pair : CStr) : Int × Handle host :=
  match cutPair pair with
  | some (var, val) => nvramSet mem h var val
  | none => (1, h)

/-- the commands `main` performs -/
inductive Cmd where
  | show
  | info
  | get (var : CStr)
  | unset (var : CStr)
  | set (pair : CStr)
  | commit
deriving DecidableEq

/-- a command after which the NVRAM has to be written -/
def Cmd.writes : Cmd → Bool
  | unset _ | set _ | commit => true
  | _ => false

/-- the variables of `main`, with the commands performed so far -/
structure Shell (host : Host) where
  nvram : Handle host
  out : List Output
  stat : Int
  done : Nat
  commit : Bool
  ran : List Cmd

/-- one command -/
def Cmd.run (mem : Mem) (c : Cmd) (s : Shell host) : Shell host :=
  let s := { s with done := s.done + 1, ran := s.ran ++ [c] }
  match c with
  | .show => { s with stat := (doShow s.nvram).1, out := s.out ++ (doShow s.nvram).2 }
  | .info => { s with stat := 0, out := s.out ++ [.info (doInfo s.nvram)] }
  | .get var => { s with stat := (doGet s.nvram var).1, out := s.out ++ (doGet s.nvram var).2 }
  | .unset var => { s with stat := (doUnset s.nvram var).1, nvram := (doUnset s.nvram var).2 }
  | .set pair => { s with stat := (doSet mem s.nvram pair).1, nvram := (doSet mem s.nvram pair).2 }
  | .commit => { s with commit := true }

theorem ran_run (mem : Mem) (c : Cmd) (s : Shell host) : (c.run mem s).ran = s.ran ++ [c] := by
  cases c <;> rfl

/-- `nvram set` never makes a name with a `=` -/
theorem cutPair_name {pair var val : CStr} (h : cutPair pair = some (var, val)) :
    eqSign ∉ var.bytes ∧ pair.bytes = var.bytes ++ eqSign :: val.bytes := by
  unfold cutPair at h
  by_cases he : eqSign ∈ pair.bytes
  · rw [if_pos he] at h
    obtain ⟨rfl, rfl⟩ := Prod.mk.inj (Option.some.inj h)
    refine ⟨fun hm => ?_, cut_eq he⟩
    have := List.mem_takeWhile_imp hm
    simp at this
  · rw [if_neg he] at h
    exact absurd h (by simp)

/-! ## the two loops -/

/-- `(!strcmp(a, word) && ++i < argc)`: its value, and `i` behind it -/
def wordAndArg (argc : Nat) (a word : CStr) (i : Nat) : Bool × Nat :=
  if a = word then (decide (i + 1 < argc), i + 1) else (false, i)

/-- iterate over arguments to see whether we can expect a write -/
def preScan (argv : List CStr) : Nat → Nat → Option Bool
  | 0, _ => none
  | fuel + 1, i =>
    if argv.length ≤ i then some false
    else do
      let a ← argv[i]?
      let (found, i) := wordAndArg argv.length a argSet i
      if found then some true
      else
        let a ← argv[i]?
        let (found, i) := wordAndArg argv.length a argUnset i
        if found then some true
        else
          let a ← argv[i]?
          if a = argCommit then some true else preScan argv fuel (i + 1)

/-- `switch (argv[i++][0])`; behind the comparisons no other letter is left -/
def argCmd (a x : CStr) : Option Cmd :=
  match a.bytes.head? with
  | some 103 => some (.get x)
  | some 117 => some (.unset x)
  | some 115 => some (.set x)
  | _ => none

/-- run the commands; `false` is the way out through an error, which clears `done` -/
def execLoop (mem : Mem) (argv : List CStr) : Nat → Nat → Shell host → Option (Shell host × Bool)
  | 0, _, _ => none
  | fuel + 1, i, s =>
    if argv.length ≤ i then some (s, true)
    else do
      let a ← argv[i]?
      if a = argShow then execLoop mem argv fuel (i + 1) (Cmd.run mem .show s)
      else if a = argInfo then execLoop mem argv fuel (i + 1) (Cmd.run mem .info s)
      else if a = argGet ∨ a = argUnset ∨ a = argSet then
        if i + 1 < argv.length then
          let x ← argv[i + 1]?
          match argCmd a x with
          | some c => execLoop mem argv fuel (i + 2) (c.run mem s)
          | none => execLoop mem argv fuel (i + 2) { s with done := s.done + 1 }
        else some ({ s with done := 0 }, false)
      else if a = argCommit then execLoop mem argv fuel (i + 1) (Cmd.run mem .commit s)
      else some ({ s with done := 0 }, false)

/-- both loops stay inside the arguments, and a write is expected exactly when one is performed -/
def ScansAgree (host : Host) (mem : Mem) (argv : List CStr) : Prop :=
  ∃ write, preScan argv (argv.length + 1) 1 = some write ∧
    ∀ s : Shell host, s.ran = [] → ∃ s' fine,
      execLoop mem argv (argv.length + 1) 1 s = some (s', fine) ∧
      (write = true ↔ ∃ c ∈ s'.ran, c.writes = true)

/-! ## what the second loop performs -/

/-- the commands in a list of arguments, up to the first error -/
def commands : List CStr → List Cmd
  | [] => []
  | a :: as =>
    if a = argShow then .show :: commands as
    else if a = argInfo then .info :: commands as
    else if a = argGet ∨ a = argUnset ∨ a = argSet then
      match as with
      | [] => []
      | x :: as => (argCmd a x).toList ++ commands as
    else if a = argCommit then .commit :: commands as
    else []

theorem commands_cons (a : CStr) (as : List CStr) : commands (a :: as) =
    if a = argShow then .show :: commands as
    else if a = argInfo then .info :: commands as
    else if a = argGet ∨ a = argUnset ∨ a = argSet then
      match as with
      | [] => []
      | x :: as => (argCmd a x).toList ++ commands as
    else if a = argCommit then .commit :: commands as
    else [] := by
  rw [commands.eq_def]

theorem argCmd_some {a : CStr} (h : a = argGet ∨ a = argUnset ∨ a = argSet) (x : CStr) :
    ∃ c, argCmd a x = some c ∧ (c.writes = true ↔ a ≠ argGet) := by
  rcases h with rfl | rfl | rfl
  · exact ⟨.get x, rfl, fun h => absurd h (by simp [Cmd.writes]), fun h => absurd rfl h⟩
  · exact ⟨.unset x, rfl, fun _ => by decide, fun _ => rfl⟩
  · exact ⟨.set x, rfl, fun _ => by decide, fun _ => rfl⟩

theorem getElem?_here (l as : List CStr) (a : CStr) : (l ++ a :: as)[l.length]? = some a := by
  rw [List.getElem?_append_right (Nat.le_refl _), Nat.sub_self]
  rfl

theorem not_end (l as : List CStr) (a : CStr) : ¬ (l ++ a :: as).length ≤ l.length := by
  rw [List.length_append, List.length_cons]
  omega

theorem append_next (l as : List CStr) (a : CStr) : l ++ a :: as = (l ++ [a]) ++ as := by
  rw [List.append_assoc]
  rfl

/-- one argument of the second loop -/
theorem execLoop_cons (mem : Mem) (l as : List CStr) (a : CStr) (fuel : Nat) (s : Shell host) :
    execLoop mem (l ++ a :: as) (fuel + 1) l.length s =
      if a = argShow then execLoop mem ((l ++ [a]) ++ as) fuel (l ++ [a]).length (Cmd.run mem .show s)
      else if a = argInfo then
        execLoop mem ((l ++ [a]) ++ as) fuel (l ++ [a]).length (Cmd.run mem .info s)
      else if a = argGet ∨ a = argUnset ∨ a = argSet then
        match as with
        | [] => some ({ s with done := 0 }, false)
        | x :: as =>
          match argCmd a x with
          | some c => execLoop mem ((l ++ [a, x]) ++ as) fuel (l ++ [a, x]).length (c.run mem s)
          | none => execLoop mem ((l ++ [a, x]) ++ as) fuel (l ++ [a, x]).length
              { s with done := s.done + 1 }
      else if a = argCommit then
        execLoop mem ((l ++ [a]) ++ as) fuel (l ++ [a]).length (Cmd.run mem .commit s)
      else some ({ s with done := 0 }, false) := by
  rw [execLoop, if_neg (not_end l as a), getElem?_here]
  simp only [Option.bind_eq_bind, Option.bind_some, List.append_assoc, List.cons_append,
    List.nil_append, List.length_append, List.length_cons, List.length_nil, Nat.zero_add,
    Nat.reduceAdd]
  cases as with
  | nil => simp
  | cons x as =>
    have hx : (l ++ a :: x :: as)[l.length + 1]? = some x := by
      rw [append_next]
      simp
    rw [if_pos (show l.length + 1 < l.length + ((x :: as).length + 1) by simp), hx]
    simp only [Option.bind_some]

/-- **The second loop** reads no argument that is not there. -/
theorem execLoop_eq (mem : Mem) (as : List CStr) : ∀ (fuel : Nat) (l : List CStr) (s : Shell host),
    as.length < fuel → ∃ s' fine, execLoop mem (l ++ as) fuel l.length s = some (s', fine) ∧
      s'.ran = s.ran ++ commands as := by
  induction as using commands.induct with
  | case1 =>
    intro fuel l s hf
    obtain ⟨fuel, rfl⟩ : ∃ k, fuel = k + 1 := ⟨fuel - 1, by simp at hf; omega⟩
    refine ⟨s, true, ?_, by simp [commands]⟩
    rw [execLoop, if_pos (by simp)]
  | case2 as ih =>
    intro fuel l s hf
    obtain ⟨fuel, rfl⟩ : ∃ k, fuel = k + 1 := ⟨fuel - 1, by omega⟩
    obtain ⟨s', fine, he, hr⟩ := ih fuel (l ++ [argShow]) (Cmd.run mem .show s) (by simp at hf; omega)
    refine ⟨s', fine, ?_, ?_⟩
    · rw [execLoop_cons, if_pos rfl, he]
    · rw [hr, ran_run, commands_cons, if_pos rfl, List.append_assoc]
      rfl
  | case3 as h ih =>
    intro fuel l s hf
    obtain ⟨fuel, rfl⟩ : ∃ k, fuel = k + 1 := ⟨fuel - 1, by omega⟩
    obtain ⟨s', fine, he, hr⟩ := ih fuel (l ++ [argInfo]) (Cmd.run mem .info s) (by simp at hf; omega)
    refine ⟨s', fine, ?_, ?_⟩
    · rw [execLoop_cons, if_neg h, if_pos rfl, he]
    · rw [hr, ran_run, commands_cons, if_neg h, if_pos rfl, List.append_assoc]
      rfl
  | case4 a h1 h2 h3 =>
    intro fuel l s hf
    obtain ⟨fuel, rfl⟩ : ∃ k, fuel = k + 1 := ⟨fuel - 1, by omega⟩
    refine ⟨{ s with done := 0 }, false, ?_, ?_⟩
    · rw [execLoop_cons, if_neg h1, if_neg h2, if_pos h3]
    · rw [commands_cons, if_neg h1, if_neg h2, if_pos h3, List.append_nil]
  | case5 a h1 h2 h3 x as ih =>
    intro fuel l s hf
    obtain ⟨fuel, rfl⟩ : ∃ k, fuel = k + 1 := ⟨fuel - 1, by omega⟩
    obtain ⟨c, hc, -⟩ := argCmd_some h3 x
    obtain ⟨s', fine, he, hr⟩ := ih fuel (l ++ [a, x]) (c.run mem s) (by simp at hf; omega)
    refine ⟨s', fine, ?_, ?_⟩
    · rw [execLoop_cons, if_neg h1, if_neg h2, if_pos h3]
      simp only [hc]
      exact he
    · rw [hr, ran_run, commands_cons, if_neg h1, if_neg h2, if_pos h3, List.append_assoc]
      simp only [hc]
      rfl
  | case6 as h1 h2 h3 ih =>
    intro fuel l s hf
    obtain ⟨fuel, rfl⟩ : ∃ k, fuel = k + 1 := ⟨fuel - 1, by omega⟩
    obtain ⟨s', fine, he, hr⟩ := ih fuel (l ++ [argCommit]) (Cmd.run mem .commit s)
      (by simp at hf; omega)
    refine ⟨s', fine, ?_, ?_⟩
    · rw [execLoop_cons, if_neg h1, if_neg h2, if_neg h3, if_pos rfl, he]
    · rw [hr, ran_run, commands_cons, if_neg h1, if_neg h2, if_neg h3, if_pos rfl, List.append_assoc]
      rfl
  | case7 a as h1 h2 h3 h4 =>
    intro fuel l s hf
    obtain ⟨fuel, rfl⟩ : ∃ k, fuel = k + 1 := ⟨fuel - 1, by omega⟩
    refine ⟨{ s with done := 0 }, false, ?_, ?_⟩
    · rw [execLoop_cons, if_neg h1, if_neg h2, if_neg h3, if_neg h4]
    · rw [commands_cons, if_neg h1, if_neg h2, if_neg h3, if_neg h4, List.append_nil]

/-- commands that only read, with their arguments -/
inductive Reads : List CStr → Prop where
  | nil : Reads []
  | show {as : List CStr} : Reads as → Reads (argShow :: as)
  | info {as : List CStr} : Reads as → Reads (argInfo :: as)
  | get (x : CStr) {as : List CStr} : Reads as → Reads (argGet :: x :: as)

/-- the arguments start with reads and a command that writes -/
def WriteFirst (as : List CStr) : Prop :=
  ∃ reads a rest, Reads reads ∧ as = reads ++ a :: rest ∧
    (a = argCommit ∨ ((a = argSet ∨ a = argUnset) ∧ rest ≠ []))

theorem writeFirst_show {as : List CStr} (h : WriteFirst as) : WriteFirst (argShow :: as) := by
  obtain ⟨reads, a, rest, hr, rfl, ha⟩ := h
  exact ⟨argShow :: reads, a, rest, hr.show, rfl, ha⟩

theorem writeFirst_info {as : List CStr} (h : WriteFirst as) : WriteFirst (argInfo :: as) := by
  obtain ⟨reads, a, rest, hr, rfl, ha⟩ := h
  exact ⟨argInfo :: reads, a, rest, hr.info, rfl, ha⟩

theorem writeFirst_get {as : List CStr} (x : CStr) (h : WriteFirst as) :
    WriteFirst (argGet :: x :: as) := by
  obtain ⟨reads, a, rest, hr, rfl, ha⟩ := h
  exact ⟨argGet :: x :: reads, a, rest, hr.get x, rfl, ha⟩

/-- a command that writes is performed, so the arguments start with one -/
theorem writeFirst_of_commands (as : List CStr) (h : ∃ c ∈ commands as, c.writes = true) :
    WriteFirst as := by
  induction as using commands.induct with
  | case1 => exact absurd h (by simp [commands])
  | case2 as ih =>
    rw [commands_cons, if_pos rfl] at h
    exact writeFirst_show (ih (by simpa [Cmd.writes] using h))
  | case3 as h1 ih =>
    rw [commands_cons, if_neg h1, if_pos rfl] at h
    exact writeFirst_info (ih (by simpa [Cmd.writes] using h))
  | case4 a h1 h2 h3 =>
    rw [commands_cons, if_neg h1, if_neg h2, if_pos h3] at h
    exact absurd h (by simp)
  | case5 a h1 h2 h3 x as ih =>
    obtain ⟨c, hc, hw⟩ := argCmd_some h3 x
    by_cases hg : a = argGet
    · subst hg
      rw [commands_cons, if_neg h1, if_neg h2, if_pos h3] at h
      have hn : ¬ c.writes = true := fun e => hw.mp e rfl
      exact writeFirst_get x (ih (by simpa [hc, hn] using h))
    · exact ⟨[], a, x :: as, .nil, rfl, .inr ⟨(h3.resolve_left hg).symm, by simp⟩⟩
  | case6 as h1 h2 h3 ih => exact ⟨[], argCommit, as, .nil, rfl, .inl rfl⟩
  | case7 a as h1 h2 h3 h4 =>
    rw [commands_cons, if_neg h1, if_neg h2, if_neg h3, if_neg h4] at h
    exact absurd h (by simp)

/-- and conversely -/
theorem commands_of_writeFirst {as : List CStr} (h : WriteFirst as) :
    ∃ c ∈ commands as, c.writes = true := by
  obtain ⟨reads, a, rest, hr, rfl, ha⟩ := h
  induction hr with
  | nil =>
    rcases ha with rfl | ⟨ha, hne⟩
    · exact ⟨.commit, by
        rw [List.nil_append, commands_cons, if_neg (by decide), if_neg (by decide), if_neg (by decide),
          if_pos rfl]
        exact List.mem_cons_self, rfl⟩
    · obtain ⟨x, rest, rfl⟩ := List.exists_cons_of_ne_nil hne
      obtain ⟨c, hc, hw⟩ := argCmd_some (.inr ha.symm) x
      have hne : a ≠ argShow ∧ a ≠ argInfo ∧ a ≠ argGet := by
        rcases ha with rfl | rfl <;> decide
      refine ⟨c, ?_, hw.mpr hne.2.2⟩
      rw [List.nil_append, commands_cons, if_neg hne.1, if_neg hne.2.1, if_pos (.inr ha.symm)]
      simp [hc]
  | «show» _ ih =>
    obtain ⟨c, hc, hw⟩ := ih
    refine ⟨c, ?_, hw⟩
    rw [List.cons_append, commands_cons, if_pos rfl]
    exact List.mem_cons_of_mem _ hc
  | info _ ih =>
    obtain ⟨c, hc, hw⟩ := ih
    refine ⟨c, ?_, hw⟩
    rw [List.cons_append, commands_cons, if_neg (by decide), if_pos rfl]
    exact List.mem_cons_of_mem _ hc
  | get x _ ih =>
    obtain ⟨c, hc, hw⟩ := ih
    refine ⟨c, ?_, hw⟩
    rw [List.cons_append, List.cons_append, commands_cons, if_neg (by decide), if_neg (by decide),
      if_pos (.inl rfl)]
    exact List.mem_append_right _ hc

/-! ## what the first loop finds -/

/-- the words the first loop looks for -/
def writeWords : List CStr := [argSet, argUnset, argCommit]

/-- one argument of the first loop -/
theorem preScan_cons (l as : List CStr) (a : CStr) (fuel : Nat) :
    preScan (l ++ a :: as) (fuel + 1) l.length =
      if a = argSet ∨ a = argUnset then (if as = [] then none else some true)
      else if a = argCommit then some true
      else preScan ((l ++ [a]) ++ as) fuel (l ++ [a]).length := by
  have hlen : (l ++ a :: as).length = l.length + (as.length + 1) := by simp
  rw [preScan, if_neg (not_end l as a), getElem?_here]
  simp only [Option.bind_eq_bind, Option.bind_some, wordAndArg, hlen]
  by_cases h1 : a = argSet
  · subst h1
    cases as with
    | nil => simp
    | cons x as => simp
  · by_cases h2 : a = argUnset
    · subst h2
      cases as with
      | nil => simp [h1]
      | cons x as => simp [h1]
    · simp only [h1, h2, Bool.false_eq_true, if_false, or_self, getElem?_here,
        Option.bind_some, List.append_assoc, List.cons_append, List.nil_append, List.length_append,
        List.length_cons, List.length_nil, Nat.zero_add]

/-- without one of its words the first loop runs to the end -/
theorem preScan_false (as : List CStr) (h : ∀ a ∈ as, a ∉ writeWords) :
    ∀ (fuel : Nat) (l : List CStr), as.length < fuel →
      preScan (l ++ as) fuel l.length = some false := by
  induction as with
  | nil =>
    intro fuel l hf
    obtain ⟨fuel, rfl⟩ : ∃ k, fuel = k + 1 := ⟨fuel - 1, by simp at hf; omega⟩
    rw [preScan, if_pos (by simp)]
  | cons a as ih =>
    intro fuel l hf
    obtain ⟨fuel, rfl⟩ : ∃ k, fuel = k + 1 := ⟨fuel - 1, by omega⟩
    have ha := h a List.mem_cons_self
    simp only [writeWords, List.mem_cons, List.not_mem_nil, or_false, not_or] at ha
    rw [preScan_cons, if_neg (by simp [ha.1, ha.2.1]), if_neg ha.2.2]
    exact ih (fun b hb => h b (List.mem_cons_of_mem a hb)) fuel _ (by simp at hf; omega)

/-- with one of its words it never returns 0 -/
theorem preScan_ne_false (as : List CStr) (h : ∃ a ∈ as, a ∈ writeWords) :
    ∀ (fuel : Nat) (l : List CStr), preScan (l ++ as) fuel l.length ≠ some false := by
  induction as with
  | nil => exact absurd h (by simp)
  | cons a as ih =>
    intro fuel l
    cases fuel with
    | zero => simp [preScan]
    | succ fuel =>
      rw [preScan_cons]
      by_cases h1 : a = argSet ∨ a = argUnset
      · rw [if_pos h1]
        split <;> simp
      · by_cases h2 : a = argCommit
        · rw [if_neg h1, if_pos h2]
          simp
        · rw [if_neg h1, if_neg h2]
          refine ih ?_ fuel _
          obtain ⟨b, hb, hw⟩ := h
          rcases List.mem_cons.mp hb with rfl | hb
          · simp only [writeWords, List.mem_cons, List.not_mem_nil, or_false] at hw
            exact absurd (hw.elim (fun e => .inl (.inl e)) fun hw => hw.elim (fun e => .inl (.inr e)) .inr)
              (by tauto : ¬ ((b = argSet ∨ b = argUnset) ∨ b = argCommit))
          · exact ⟨b, hb, hw⟩

/-- a write that is performed is announced -/
theorem preScan_true {as : List CStr} (h : WriteFirst as) : ∀ (fuel : Nat) (l : List CStr),
    as.length < fuel → preScan (l ++ as) fuel l.length = some true := by
  obtain ⟨reads, a, rest, hr, rfl, ha⟩ := h
  induction hr with
  | nil =>
    intro fuel l hf
    obtain ⟨fuel, rfl⟩ : ∃ k, fuel = k + 1 := ⟨fuel - 1, by omega⟩
    rw [List.nil_append, preScan_cons]
    rcases ha with rfl | ⟨ha, hne⟩
    · rw [if_neg (by decide), if_pos rfl]
    · rw [if_pos ha, if_neg hne]
  | «show» _ ih =>
    intro fuel l hf
    obtain ⟨fuel, rfl⟩ : ∃ k, fuel = k + 1 := ⟨fuel - 1, by omega⟩
    rw [List.cons_append, preScan_cons, if_neg (by decide), if_neg (by decide)]
    exact ih fuel _ (by simp at hf ⊢; omega)
  | info _ ih =>
    intro fuel l hf
    obtain ⟨fuel, rfl⟩ : ∃ k, fuel = k + 1 := ⟨fuel - 1, by omega⟩
    rw [List.cons_append, preScan_cons, if_neg (by decide), if_neg (by decide)]
    exact ih fuel _ (by simp at hf ⊢; omega)
  | @get x reads _ ih =>
    -- the argument of `get` can be one of the words, and is not the last
    intro fuel l hf
    obtain ⟨fuel, rfl⟩ : ∃ k, fuel = k + 2 := ⟨fuel - 2, by simp at hf; omega⟩
    rw [List.cons_append, List.cons_append, preScan_cons, if_neg (by decide), if_neg (by decide),
      preScan_cons]
    by_cases h1 : x = argSet ∨ x = argUnset
    · rw [if_pos h1, if_neg (by simp)]
    · by_cases h2 : x = argCommit
      · rw [if_neg h1, if_pos h2]
      · rw [if_neg h1, if_neg h2]
        exact ih fuel _ (by simp at hf ⊢; omega)

/-! ## the two loops agree -/

/-- **The command line.**  Both loops stay inside the arguments and agree on writes exactly when
no argument is `set`, `unset` or `commit`, or the first command that does not only read is one of
them, with its argument. -/
theorem scansAgree_iff (host : Host) (mem : Mem) (argv : List CStr) : ScansAgree host mem argv ↔
    (∀ a ∈ argv.tail, a ∉ writeWords) ∨ WriteFirst argv.tail := by
  cases argv with
  | nil =>
    refine ⟨fun _ => .inl (by simp), fun _ => ⟨false, by simp [preScan], fun s hs => ⟨s, true, ?_, ?_⟩⟩⟩
    · simp [execLoop]
    · simp [hs]
  | cons p as =>
    have hf : as.length < (p :: as).length + 1 := by
      rw [List.length_cons]
      omega
    have hran (s : Shell host) (hs : s.ran = []) : ∃ s' fine,
        execLoop mem (p :: as) ((p :: as).length + 1) 1 s = some (s', fine) ∧ s'.ran = commands as := by
      obtain ⟨s', fine, he, hr⟩ := execLoop_eq mem as _ [p] s hf
      exact ⟨s', fine, he, by rw [hr, hs, List.nil_append]⟩
    constructor
    · rintro ⟨write, hp, hx⟩
      by_cases hw : ∃ a ∈ as, a ∈ writeWords
      · have hne := preScan_ne_false as hw ((p :: as).length + 1) [p]
        have ht : write = true := by
          by_contra hn
          rw [Bool.eq_false_of_not_eq_true hn] at hp
          exact hne hp
        obtain ⟨s', fine, he, hiff⟩ := hx ⟨⟨0, [], 0, Chained.empty, []⟩, [], 0, 0, false, []⟩ rfl
        obtain ⟨s₁, fine₁, he₁, hr⟩ := hran ⟨⟨0, [], 0, Chained.empty, []⟩, [], 0, 0, false, []⟩ rfl
        obtain ⟨rfl, -⟩ := Prod.mk.inj (Option.some.inj (he.symm.trans he₁))
        exact .inr (writeFirst_of_commands as (hr ▸ hiff.mp ht))
      · exact .inl fun a ha hm => hw ⟨a, ha, hm⟩
    · rintro (hno | hw)
      · refine ⟨false, preScan_false as hno _ [p] hf, fun s hs => ?_⟩
        obtain ⟨s', fine, he, hr⟩ := hran s hs
        refine ⟨s', fine, he, fun h => absurd h (by simp), fun hc => ?_⟩
        obtain ⟨reads, a, rest, -, (rfl : as = _), ha⟩ := writeFirst_of_commands as (hr ▸ hc)
        refine absurd ?_ (hno a (List.mem_append_right _ List.mem_cons_self))
        rcases ha with rfl | ⟨rfl | rfl, -⟩ <;> simp [writeWords]
      · refine ⟨true, preScan_true hw _ [p] hf, fun s hs => ?_⟩
        obtain ⟨s', fine, he, hr⟩ := hran s hs
        exact ⟨s', fine, he, fun _ => hr ▸ commands_of_writeFirst hw, fun _ => rfl⟩

def argNvram : CStr := lit ['n', 'v', 'r', 'a', 'm'] (by decide)

/-- `nvram set` compares `argv[argc]`; `nvram get set x` takes the name of a variable for a
command -/
theorem scansAgree_set : ¬ ScansAgree littleHost .ok [argNvram, argSet] ∧
    ¬ ScansAgree littleHost .ok [argNvram, argGet, argSet, argNvram] := by
  constructor
  · rintro ⟨write, hp, -⟩
    have hn : preScan [argNvram, argSet] 3 1 = none := by decide
    exact absurd (hn.symm.trans hp) (by simp)
  · rintro ⟨write, hp, hx⟩
    have ht : preScan [argNvram, argGet, argSet, argNvram] 5 1 = some true := by decide
    obtain rfl := Option.some.inj (ht.symm.trans hp)
    obtain ⟨s', fine, he, hiff⟩ := hx ⟨⟨0, [], 0, Chained.empty, []⟩, [], 0, 0, false, []⟩ rfl
    obtain ⟨s₁, fine₁, he₁, hr⟩ := execLoop_eq .ok [argGet, argSet, argNvram] 5 [argNvram]
      (⟨⟨0, [], 0, Chained.empty, []⟩, [], 0, 0, false, []⟩ : Shell littleHost) (by decide)
    obtain ⟨rfl, -⟩ := Prod.mk.inj (Option.some.inj (he.symm.trans he₁))
    obtain ⟨c, hc, hw⟩ := hiff.mp rfl
    rw [hr, show commands [argGet, argSet, argNvram] = [.get argSet] from by decide] at hc
    obtain rfl := List.mem_singleton.mp hc
    exact absurd hw (by decide)

end Nvram.Cli
