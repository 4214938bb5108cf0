import Mathlib.Data.List.Basic
import Firmware.Lib.Run
import Firmware.Lib.Words
import Firmware.Lib.Decimal
import Firmware.Switch.Devices

/-!
# swconfig: port lists as text

`print_attr_val` prints the ports of a VLAN, and `swlib_set_attr_string` reads such a list.

* `printPorts`        the text of a list;
* `step`              one turn of the scanner, with the array it fills;
* `IsPort`, `portOf`  a word that the scanner takes, and what it makes of it;
* `scan_words`        the scanner goes over the words of the text;
* `parse_spec`        what is accepted, and what was printed is read back.
-/

set_option linter.unusedVariables false

namespace Swlib
open CStr Scanf Words Machine
open Swconfig (Abi)

/-- `struct switch_port` -/
structure SwitchPort where
  id : UInt32
  flags : UInt32
deriving DecidableEq

/-- `SWLIB_PORT_FLAG_TAGGED` -/
def tagged : UInt32 := 1

/-! ## printing -/

/-- `%d`, for an `unsigned int` -/
def printInt (n : UInt32) : List UInt8 :=
  if n.toNat < 2147483648 then decimal n.toNat else 45 :: decimal (4294967296 - n.toNat)

/-- the letter of a tagged port -/
def tagText (p : SwitchPort) : List UInt8 := if p.flags &&& tagged ≠ 0 then [116] else []

/-- `print_attr_val`, for `SWITCH_TYPE_PORTS` -/
def printPorts (l : List SwitchPort) : List UInt8 := l.flatMap fun p => printInt p.id ++ tagText p ++ [32]

/-! ## the scanner -/

/-- `ULONG_MAX` -/
def ulongMax (abi : Abi) : Nat := 2 ^ abi.longBits - 1

/-- the pointer, the array and `val.len` -/
structure Scanner where
  ptr : List UInt8
  ports : List SwitchPort
  len : Nat

/-- a list for the kernel, `-1`, or a write behind the array -/
inductive Parsed where
  | ok (ports : List SwitchPort) (len : Nat)
  | error
  | outside
deriving DecidableEq

/-- an assignment to a field of `ports[i]` -/
def assign (ports : List SwitchPort) (i : Nat) (p : SwitchPort) : Option (List SwitchPort) :=
  if i < ports.length then some (ports.set i p) else none

/-- the letters behind a number; `none` is the `return -1` -/
def tagLoop : UInt32 → List UInt8 → Option (UInt32 × List UInt8)
  | flags, [] => some (flags, [])
  | flags, b :: l =>
    if isspace b then some (flags, b :: l)
    else if b = 116 then tagLoop (flags ||| tagged) l
    else none

/-- one turn of the loop of `swlib_set_attr_string`, for a switch with `devPorts` ports -/
def step (abi : Abi) (devPorts : Nat) (s : Scanner) : Scanner ⊕ Parsed :=
  match s.ptr.dropWhile isspace with
  | [] => .inr (.ok s.ports s.len)
  | b :: l =>
    if !isdigit b then .inr .error
    else if s.len ≥ devPorts then .inr .error
    else
      let (n, ptr) := strtoul (ulongMax abi) (b :: l)
      match assign s.ports s.len ⟨UInt32.ofNat n, 0⟩ with
      | none => .inr .outside
      | some ports =>
        match tagLoop 0 ptr with
        | none => .inr .error
        | some (flags, ptr) =>
          match assign ports s.len ⟨UInt32.ofNat n, flags⟩ with
          | none => .inr .outside
          | some ports => .inl ⟨ptr.tail, ports, s.len + 1⟩

/-- `alloca` and `memset` -/
def start (devPorts : Nat) (str : CStr) : Scanner :=
  ⟨str.bytes, List.replicate devPorts ⟨0, 0⟩, 0⟩

/-! ## the words of a text -/

/-- decimal digits, then letters `t` -/
def IsPort (w : List UInt8) : Prop :=
  ∃ ds ts, w = ds ++ ts ∧ ds ≠ [] ∧ (∀ b ∈ ds, isdigit b = true) ∧ ∀ b ∈ ts, b = 116

/-- the number of a word -/
def numberOf (w : List UInt8) : Nat := digits 10 0 (w.takeWhile isdigit)

/-- the port of a word; the number is that of `strtoul`, in 32 bits -/
def portOf (abi : Abi) (w : List UInt8) : SwitchPort :=
  ⟨UInt32.ofNat (min (numberOf w) (ulongMax abi)), if 116 ∈ w then tagged else 0⟩

/-- the word of a port -/
def wordOf (p : SwitchPort) : List UInt8 := printInt p.id ++ tagText p

theorem isspace_116 : isspace 116 = false := by decide

theorem isdigit_116 : isdigit 116 = false := by decide

/-- digits and letters are told apart -/
theorem takeWhile_port {ds ts : List UInt8} (hd : ∀ b ∈ ds, isdigit b = true) (ht : ∀ b ∈ ts, b = 116) :
    (ds ++ ts).takeWhile isdigit = ds := by
  rw [List.takeWhile_append_of_pos hd]
  cases ts with
  | nil => exact List.append_nil ds
  | cons b ts =>
    rw [List.takeWhile_cons_of_neg, List.append_nil]
    rw [ht b List.mem_cons_self, isdigit_116]
    exact Bool.false_ne_true

theorem isPort_iff {w : List UInt8} :
    IsPort w ↔ w.takeWhile isdigit ≠ [] ∧ ∀ b ∈ w.dropWhile isdigit, b = 116 := by
  constructor
  · rintro ⟨ds, ts, rfl, h0, hd, ht⟩
    have h := takeWhile_port hd ht
    refine ⟨by rw [h]; exact h0, ?_⟩
    have hs := List.takeWhile_append_dropWhile (p := isdigit) (l := ds ++ ts)
    rw [h] at hs
    rw [List.append_cancel_left hs]
    exact ht
  · rintro ⟨h0, ht⟩
    exact ⟨w.takeWhile isdigit, w.dropWhile isdigit, List.takeWhile_append_dropWhile.symm, h0,
      fun b hb => List.mem_takeWhile_imp hb, ht⟩

/-- the letters: the text goes on behind them, and the flag is set if there are any -/
theorem tagLoop_some {l : List UInt8} : ∀ {flags : UInt32},
    (∀ b ∈ l.takeWhile (fun b => !isspace b), b = 116) →
    tagLoop flags l = some (if l.takeWhile (fun b => !isspace b) = [] then flags else flags ||| tagged,
      l.dropWhile fun b => !isspace b) := by
  induction l with
  | nil => exact fun _ => rfl
  | cons b l ih =>
    intro flags h
    unfold tagLoop
    by_cases hb : isspace b = true
    · rw [if_pos hb, List.takeWhile_cons_of_neg (by rw [hb]; decide),
        List.dropWhile_cons_of_neg (by rw [hb]; decide), if_pos rfl]
    · rw [List.takeWhile_cons_of_pos (by simpa using hb)] at h ⊢
      rw [if_neg hb, if_pos (h b List.mem_cons_self), List.dropWhile_cons_of_pos (by simpa using hb),
        ih fun c hc => h c (List.mem_cons_of_mem _ hc), if_neg (List.cons_ne_nil _ _)]
      have hor : flags ||| tagged ||| tagged = flags ||| tagged := by
        rw [UInt32.or_assoc, UInt32.or_self]
      rw [hor, ite_self]

theorem tagLoop_none {l : List UInt8} : ∀ {flags : UInt32},
    (∃ b ∈ l.takeWhile (fun b => !isspace b), b ≠ 116) → tagLoop flags l = none := by
  induction l with
  | nil => exact fun ⟨b, hb, _⟩ => absurd hb List.not_mem_nil
  | cons b l ih =>
    rintro flags ⟨c, hc, hne⟩
    unfold tagLoop
    by_cases hb : isspace b = true
    · rw [List.takeWhile_cons_of_neg (by rw [hb]; decide)] at hc
      exact absurd hc List.not_mem_nil
    · rw [List.takeWhile_cons_of_pos (by simpa using hb)] at hc
      rw [if_neg hb]
      by_cases hbt : b = 116
      · rw [if_pos hbt]
        rcases List.mem_cons.mp hc with rfl | hc
        · exact absurd hbt hne
        · exact ih ⟨c, hc, hne⟩
      · rw [if_neg hbt]

/-! ## the scanner goes over the words -/

/-- the text from its first word on, if there is one -/
theorem words_cases (l : List UInt8) :
    (l.dropWhile isspace = [] ∧ words isspace l = []) ∨
    ∃ b r, l.dropWhile isspace = b :: r ∧ isspace b = false ∧
      words isspace l = (b :: r).takeWhile (fun b => !isspace b) ::
        words isspace ((b :: r).dropWhile fun b => !isspace b).tail := by
  rw [← words_dropWhile l]
  cases h : l.dropWhile isspace with
  | nil => exact .inl ⟨rfl, words_nil⟩
  | cons b r =>
    have hb : isspace b = false := by
      have hh := List.head_dropWhile_not isspace (l := l) (by rw [h]; exact List.cons_ne_nil _ _)
      simpa only [h, List.head_cons] using hh
    exact .inr ⟨b, r, rfl, hb, words_takeWhile ⟨b, rfl, hb⟩⟩

/-- the digits of a word, and its letters -/
theorem takeWhile_word (l : List UInt8) :
    (l.takeWhile fun b => !isspace b).takeWhile isdigit = l.takeWhile isdigit ∧
    (l.takeWhile fun b => !isspace b).dropWhile isdigit
      = (l.dropWhile isdigit).takeWhile fun b => !isspace b := by
  induction l with
  | nil => exact ⟨rfl, rfl⟩
  | cons b l ih =>
    by_cases hd : isdigit b = true
    · have hs := (isdigit_spec hd).1
      rw [List.takeWhile_cons_of_pos (by rw [hs]; rfl), List.takeWhile_cons_of_pos hd,
        List.takeWhile_cons_of_pos hd, List.dropWhile_cons_of_pos hd, List.dropWhile_cons_of_pos hd]
      exact ⟨congrArg (b :: ·) ih.1, ih.2⟩
    · rw [List.takeWhile_cons_of_neg hd, List.dropWhile_cons_of_neg hd]
      by_cases hs : isspace b = true
      · rw [List.takeWhile_cons_of_neg (by rw [hs]; decide)]
        exact ⟨rfl, rfl⟩
      · rw [List.takeWhile_cons_of_pos (by simpa using hs)]
        exact ⟨List.takeWhile_cons_of_neg hd, List.dropWhile_cons_of_neg hd⟩

/-- the digits of the first word and its letters, in the list from there on -/
theorem first_word {l w : List UInt8} {ws : List (List UInt8)} (hw : words isspace l = w :: ws) :
    ∃ b r, l.dropWhile isspace = b :: r ∧ w.takeWhile isdigit = (b :: r).takeWhile isdigit ∧
      w.dropWhile isdigit = ((b :: r).dropWhile isdigit).takeWhile (fun b => !isspace b) ∧
      ws = words isspace ((b :: r).dropWhile fun b => !isspace b).tail := by
  obtain ⟨-, h⟩ | ⟨b, r, hd, -, h⟩ := words_cases l
  · rw [hw] at h
    cases h
  · rw [hw] at h
    obtain ⟨rfl, rfl⟩ := List.cons.inj h
    obtain ⟨ht, hdrop⟩ := takeWhile_word (b :: r)
    exact ⟨b, r, hd, ht, hdrop, rfl⟩

theorem dropWhile_digits (l : List UInt8) : (l.dropWhile isdigit).dropWhile (fun b => !isspace b)
    = l.dropWhile fun b => !isspace b := by
  conv_rhs => rw [← List.takeWhile_append_dropWhile (p := isdigit) (l := l)]
  rw [List.dropWhile_append_of_pos]
  intro b hb
  rw [(isdigit_spec (List.mem_takeWhile_imp hb)).1]
  rfl

theorem assign_set {ports : List SwitchPort} {i : Nat} (h : i < ports.length) (p : SwitchPort) :
    assign ports i p = some (ports.set i p) := if_pos h

/-- a word that is taken -/
theorem step_port {abi : Abi} {n : Nat} {s : Scanner} {w : List UInt8} {ws : List (List UInt8)}
    (hw : words isspace s.ptr = w :: ws) (hp : IsPort w) (hn : s.ports.length = n) (hl : s.len < n) :
    ∃ ptr, step abi n s = .inl ⟨ptr, s.ports.set s.len (portOf abi w), s.len + 1⟩ ∧
      words isspace ptr = ws := by
  obtain ⟨b, r, hd, ht, hdrop, hws⟩ := first_word hw
  obtain ⟨h0, htags⟩ := isPort_iff.mp hp
  have hb : isdigit b = true := by
    by_contra hb
    rw [ht, List.takeWhile_cons_of_neg hb] at h0
    exact h0 rfl
  -- the flag is that of the word
  have hflag : (if 116 ∈ w then tagged else 0)
      = if (w.dropWhile isdigit) = [] then (0 : UInt32) else 0 ||| tagged := by
    have hsplit := List.takeWhile_append_dropWhile (p := isdigit) (l := w)
    have hmem : 116 ∈ w ↔ 116 ∈ w.dropWhile isdigit := by
      conv_lhs => rw [← hsplit]
      rw [List.mem_append, or_iff_right]
      intro hm
      exact absurd (List.mem_takeWhile_imp hm) (by decide)
    rw [if_congr hmem rfl rfl]
    cases hc : w.dropWhile isdigit with
    | nil => rfl
    | cons c l =>
      have hc' : c = 116 := htags c (by rw [hc]; exact List.mem_cons_self)
      rw [hc', if_pos List.mem_cons_self, if_neg (List.cons_ne_nil _ _)]
      rfl
  have hport : portOf abi w = ⟨UInt32.ofNat (min (digits 10 0 ((b :: r).takeWhile isdigit)) (ulongMax abi)),
      if (w.dropWhile isdigit) = [] then (0 : UInt32) else 0 ||| tagged⟩ := by
    unfold portOf numberOf
    rw [hflag, ht]
  refine ⟨((b :: r).dropWhile fun b => !isspace b).tail, ?_, hws.symm⟩
  unfold step
  rw [hd]
  dsimp only
  rw [if_neg (by rw [hb]; decide), if_neg (by omega), strtoul_digit ⟨b, rfl, hb⟩]
  dsimp only
  rw [assign_set (by omega)]
  dsimp only
  rw [tagLoop_some (by rw [← hdrop]; exact htags), ← hdrop, dropWhile_digits]
  dsimp only
  rw [assign_set (by rw [List.length_set]; omega), List.set_set, hport]

/-- a word that is not taken -/
theorem step_bad {abi : Abi} {n : Nat} {s : Scanner} {w : List UInt8} {ws : List (List UInt8)}
    (hw : words isspace s.ptr = w :: ws) (hp : ¬ (IsPort w ∧ s.len < n)) (hn : s.ports.length = n) :
    step abi n s = .inr .error := by
  obtain ⟨b, r, hd, ht, hdrop, -⟩ := first_word hw
  unfold step
  rw [hd]
  dsimp only
  by_cases hb : isdigit b = true
  · rw [if_neg (by rw [hb]; decide)]
    by_cases hl : s.len ≥ n
    · rw [if_pos hl]
    · rw [if_neg hl, strtoul_digit ⟨b, rfl, hb⟩]
      dsimp only
      rw [assign_set (by omega)]
      dsimp only
      have hbad : ∃ c ∈ ((b :: r).dropWhile isdigit).takeWhile (fun b => !isspace b), c ≠ 116 := by
        rw [← hdrop]
        by_contra hall
        have h0 : w.takeWhile isdigit ≠ [] := by
          rw [ht, List.takeWhile_cons_of_pos hb]
          exact List.cons_ne_nil _ _
        refine hp ⟨isPort_iff.mpr ⟨h0, fun c hc => ?_⟩, by omega⟩
        by_contra hne
        exact hall ⟨c, hc, hne⟩
      rw [tagLoop_none hbad]
  · rw [if_pos (by simpa using hb)]

theorem step_end {abi : Abi} {n : Nat} {s : Scanner} (hw : words isspace s.ptr = []) :
    step abi n s = .inr (.ok s.ports s.len) := by
  obtain ⟨hd, -⟩ | ⟨b, r, -, -, h⟩ := words_cases s.ptr
  · unfold step
    rw [hd]
  · rw [hw] at h
    cases h

/-- the words are those of a list with room for it -/
def Fits (n : Nat) (s : Scanner) (ws : List (List UInt8)) : Prop :=
  (∀ w ∈ ws, IsPort w) ∧ s.len + ws.length ≤ n

theorem fits_cons {n : Nat} {s s' : Scanner} {w : List UInt8} {ws : List (List UInt8)}
    (hl : s'.len = s.len + 1) : Fits n s (w :: ws) ↔ (IsPort w ∧ s.len < n) ∧ Fits n s' ws := by
  unfold Fits
  rw [List.forall_mem_cons, List.length_cons, hl]
  constructor
  · rintro ⟨⟨h1, h2⟩, h3⟩
    exact ⟨⟨h1, by omega⟩, h2, by omega⟩
  · rintro ⟨⟨h1, h2⟩, h3, h4⟩
    exact ⟨⟨h1, h3⟩, by omega⟩

/-- **The run of the scanner**, by the words of the text that is left. -/
theorem scan_words {abi : Abi} {n : Nat} (ws : List (List UInt8)) : ∀ {s : Scanner},
    words isspace s.ptr = ws → s.ports.length = n → s.len ≤ n →
    (Fits n s ws → ∃ ports, Ends (step abi n) s (.ok ports (s.len + ws.length)) ∧
      ports.take (s.len + ws.length) = s.ports.take s.len ++ ws.map (portOf abi)) ∧
    (¬ Fits n s ws → Ends (step abi n) s .error) := by
  induction ws with
  | nil =>
    intro s hw hn hl
    refine ⟨fun _ => ⟨s.ports, Ends.done (step_end hw), (List.append_nil _).symm⟩, fun h => ?_⟩
    exact absurd ⟨fun w hw => absurd hw List.not_mem_nil, hl⟩ h
  | cons w ws ih =>
    intro s hw hn hl
    by_cases hp : IsPort w ∧ s.len < n
    · obtain ⟨ptr, hs, hws⟩ := @step_port abi n s w ws hw hp.1 hn hp.2
      have hset : (s.ports.set s.len (portOf abi w)).take (s.len + 1)
          = s.ports.take s.len ++ [portOf abi w] := by
        rw [List.take_succ_eq_append_getElem (by rw [List.length_set]; omega), List.getElem_set_self,
          List.take_set_of_le (le_refl _)]
      obtain ⟨h1, h2⟩ := ih (s := ⟨ptr, s.ports.set s.len (portOf abi w), s.len + 1⟩) hws
        (by rw [List.length_set]; exact hn) hp.2
      have hf : Fits n s (w :: ws) ↔ _ := 
        @fits_cons n s ⟨ptr, s.ports.set s.len (portOf abi w), s.len + 1⟩ w ws rfl
      rw [hf, and_iff_right hp]
      constructor
      · intro h
        obtain ⟨ports, he, ht⟩ := h1 h
        have hlen : s.len + 1 + ws.length = s.len + (w :: ws).length := by
          rw [List.length_cons]
          omega
        rw [← hlen]
        refine ⟨ports, (ends_step hs).mpr he, ht.trans ?_⟩
        rw [hset, List.append_assoc]
        rfl
      · exact fun h => (ends_step hs).mpr (h2 h)
    · refine ⟨fun h => absurd ((@fits_cons n s ⟨[], [], s.len + 1⟩ w ws rfl).mp h).1 hp, fun _ => ?_⟩
      exact Ends.done (step_bad hw hp hn)

/-! ## the words of a printed list -/

theorem isspace_decimal {n : Nat} {b : UInt8} (h : b ∈ decimal n) : isspace b = false :=
  (isdigit_spec (isdigit_decimal h)).1

theorem isspace_wordOf {p : SwitchPort} {b : UInt8} (h : b ∈ wordOf p) : isspace b = false := by
  rcases List.mem_append.mp h with h | h
  · unfold printInt at h
    split at h
    · exact isspace_decimal h
    · rcases List.mem_cons.mp h with rfl | h
      · decide
      · exact isspace_decimal h
  · unfold tagText at h
    split at h
    · exact List.mem_singleton.mp h ▸ isspace_116
    · exact absurd h List.not_mem_nil

theorem wordOf_ne_nil (p : SwitchPort) : wordOf p ≠ [] := by
  intro h
  have hi := (List.append_eq_nil_iff.mp h).1
  unfold printInt at hi
  split at hi
  · exact decimal_ne_nil _ hi
  · exact List.cons_ne_nil _ _ hi

theorem words_printPorts (l : List SwitchPort) : words isspace (printPorts l) = l.map wordOf := by
  induction l with
  | nil => rfl
  | cons p l ih =>
    have he : printPorts (p :: l) = wordOf p ++ 32 :: printPorts l := by
      unfold printPorts wordOf
      rw [List.flatMap_cons, List.append_assoc]
      rfl
    rw [he, words_append (wordOf_ne_nil p) (fun b => isspace_wordOf)
      (fun b hb => by rw [← Option.some.inj hb]; decide), List.map_cons, ← ih]
    rfl

theorem printPorts_nul_free (l : List SwitchPort) : 0 ∉ printPorts l := by
  intro h
  obtain ⟨p, -, h⟩ := List.mem_flatMap.mp h
  rcases List.mem_append.mp h with h | h
  · rcases List.mem_append.mp h with h | h
    · unfold printInt at h
      split at h
      · exact absurd (isdigit_decimal h) (by decide)
      · rcases List.mem_cons.mp h with h | h
        · exact absurd h (by decide)
        · exact absurd (isdigit_decimal h) (by decide)
    · unfold tagText at h
      split at h
      · exact absurd (List.mem_singleton.mp h) (by decide)
      · exact absurd h List.not_mem_nil
  · exact absurd (List.mem_singleton.mp h) (by decide)

def printed (l : List SwitchPort) : CStr := ⟨printPorts l, printPorts_nul_free l⟩

/-- a port that the text can tell -/
def Plain (p : SwitchPort) : Prop := p.id.toNat < 2147483648 ∧ (p.flags = 0 ∨ p.flags = tagged)

theorem wordOf_plain {p : SwitchPort} (h : Plain p) :
    wordOf p = decimal p.id.toNat ++ if p.flags = tagged then [116] else [] := by
  unfold wordOf printInt tagText
  rw [if_pos h.1]
  rcases h.2 with hf | hf <;> rw [hf] <;> rfl

theorem isPort_wordOf {p : SwitchPort} (h : Plain p) : IsPort (wordOf p) := by
  refine ⟨_, _, wordOf_plain h, decimal_ne_nil _, fun b => isdigit_decimal, fun b hb => ?_⟩
  split at hb
  · exact List.mem_singleton.mp hb
  · exact absurd hb List.not_mem_nil

theorem le_ulongMax (abi : Abi) : 4294967295 ≤ ulongMax abi := by
  cases abi <;> decide

/-- a number below `2^32` is taken as it is -/
theorem portOf_id (abi : Abi) {w : List UInt8} (h : numberOf w < 4294967296) :
    (portOf abi w).id.toNat = numberOf w := by
  have hm := le_ulongMax abi
  show (UInt32.ofNat (min (numberOf w) (ulongMax abi))).toNat = _
  rw [Nat.min_eq_left (by omega), UInt32.toNat_ofNat']
  exact Nat.mod_eq_of_lt h

theorem portOf_wordOf (abi : Abi) {p : SwitchPort} (h : Plain p) : portOf abi (wordOf p) = p := by
  have hp := UInt32.toNat_lt p.id
  have hnum : numberOf (wordOf p) = p.id.toNat := by
    unfold numberOf
    rw [wordOf_plain h, takeWhile_port (fun b => isdigit_decimal), digits_decimal]
    intro b hb
    split at hb
    · exact List.mem_singleton.mp hb
    · exact absurd hb List.not_mem_nil
  have hid : (portOf abi (wordOf p)).id = p.id := by
    apply UInt32.toNat_inj.mp
    rw [portOf_id abi (by rw [hnum]; exact hp), hnum]
  have hmem : 116 ∈ wordOf p ↔ p.flags = tagged := by
    rw [wordOf_plain h, List.mem_append, or_iff_right]
    · split
      · next hf => exact iff_of_true List.mem_cons_self hf
      · next hf => exact iff_of_false List.not_mem_nil hf
    · intro hm
      exact absurd (isdigit_decimal hm) (by decide)
  have hflags : (portOf abi (wordOf p)).flags = p.flags := by
    show (if 116 ∈ wordOf p then tagged else 0) = _
    rw [if_congr hmem rfl rfl]
    rcases h.2 with hf | hf <;> rw [hf] <;> rfl
  obtain ⟨id, flags⟩ := p
  exact congrArg₂ SwitchPort.mk hid hflags

/-! ## what is accepted -/

/-- the outcome of the parser: the list, or `-1` -/
def Returns (abi : Abi) (n : Nat) (str : CStr) : Option (List SwitchPort) → Prop
  | some l => ∃ ports, Ends (step abi n) (start n str) (.ok ports l.length) ∧ ports.take l.length = l
  | none => Ends (step abi n) (start n str) .error

/-- at most `n` words, digits with letters `t` behind them -/
def Accepts (n : Nat) (str : CStr) : Prop :=
  (∀ w ∈ words isspace str.bytes, IsPort w) ∧ (words isspace str.bytes).length ≤ n

theorem returns_words (abi : Abi) (n : Nat) (str : CStr) :
    (Accepts n str → Returns abi n str (some ((words isspace str.bytes).map (portOf abi)))) ∧
    (¬ Accepts n str → Returns abi n str none) := by
  have hf : Fits n (start n str) (words isspace str.bytes) ↔ Accepts n str := by
    unfold Fits Accepts start
    rw [Nat.zero_add]
  obtain ⟨h1, h2⟩ := @scan_words abi n (words isspace str.bytes)
    (start n str) rfl List.length_replicate (Nat.zero_le n)
  rw [hf] at h1 h2
  refine ⟨fun h => ?_, h2⟩
  obtain ⟨ports, he, ht⟩ := h1 h
  have hlen : (start n str).len + (words isspace str.bytes).length
      = ((words isspace str.bytes).map (portOf abi)).length := by
    rw [List.length_map]
    exact Nat.zero_add _
  rw [hlen] at he ht
  exact ⟨ports, he, ht⟩

/-- **Port lists as text**: what was printed is read back; a text is accepted exactly if it is made
of at most `n` words of digits and letters `t`, with the ports of these words; and the array is
never left. -/
theorem parse_spec (abi : Abi) (n : Nat) :
    (∀ l : List SwitchPort, l.length ≤ n → (∀ p ∈ l, Plain p) → Returns abi n (printed l) (some l)) ∧
    (∀ str l, Returns abi n str (some l) ↔
      Accepts n str ∧ l = (words isspace str.bytes).map (portOf abi)) ∧
    (∀ str, (∃ r, Ends (step abi n) (start n str) r) ∧ ¬ Ends (step abi n) (start n str) .outside) ∧
    ∀ w, numberOf w < 4294967296 → (portOf abi w).id.toNat = numberOf w := by
  have hsome : ∀ {str : CStr} {l : List SwitchPort}, Returns abi n str (some l) →
      Accepts n str ∧ l = (words isspace str.bytes).map (portOf abi) := by
    rintro str l ⟨ports, he, ht⟩
    obtain ⟨h1, h2⟩ := returns_words abi n str
    by_cases ha : Accepts n str
    · obtain ⟨ports', he', ht'⟩ := h1 ha
      have hr := he.unique he'
      injection hr with hp hl
      rw [← hp, ← hl] at ht'
      exact ⟨ha, ht.symm.trans ht'⟩
    · cases he.unique (h2 ha)
  refine ⟨fun l hl hp => ?_, fun str l => ⟨hsome, ?_⟩, fun str => ?_,
    fun w => portOf_id abi⟩
  · have hw : words isspace (printed l).bytes = l.map wordOf := words_printPorts l
    have ha : Accepts n (printed l) := by
      unfold Accepts
      rw [hw, List.length_map]
      refine ⟨fun w hm => ?_, hl⟩
      obtain ⟨p, hpl, rfl⟩ := List.mem_map.mp hm
      exact isPort_wordOf (hp p hpl)
    have hmap : (words isspace (printed l).bytes).map (portOf abi) = l := by
      rw [hw, List.map_map]
      exact (List.map_congr_left fun p hpl => portOf_wordOf abi (hp p hpl)).trans (List.map_id l)
    have hr := (returns_words abi n (printed l)).1 ha
    rw [hmap] at hr
    exact hr
  · rintro ⟨ha, rfl⟩
    exact (returns_words abi n str).1 ha
  · obtain ⟨h1, h2⟩ := returns_words abi n str
    by_cases ha : Accepts n str
    · obtain ⟨ports, he, -⟩ := h1 ha
      exact ⟨⟨_, he⟩, fun ho => Parsed.noConfusion (he.unique ho)⟩
    · exact ⟨⟨_, h2 ha⟩, fun ho => Parsed.noConfusion ((h2 ha).unique ho)⟩

/-- `1 3t` -/
theorem parse_two : Returns .ilp32 2 (printed [⟨1, 0⟩, ⟨3, 1⟩]) (some [⟨1, 0⟩, ⟨3, 1⟩]) := by
  refine (parse_spec .ilp32 2).1 _ (by decide) fun p hp => ?_
  rcases List.mem_cons.mp hp with rfl | hp
  · exact ⟨by decide, .inl rfl⟩
  · exact List.mem_singleton.mp hp ▸ ⟨by decide, .inr rfl⟩

/-- `4294967296` -/
def overflowText : CStr := ⟨decimal 4294967296, fun h => absurd (isdigit_decimal h) (by decide)⟩

/-- `2^32` is accepted as a port id, as 0 -/
theorem overflow_port : (words isspace overflowText.bytes).map numberOf = [4294967296] ∧
    Returns .lp64 1 overflowText (some [⟨0, 0⟩]) ∧
    ¬ ∀ str l, Accepts 1 str → Returns .lp64 1 str (some l) →
      l.map (·.id.toNat) = (words isspace str.bytes).map numberOf := by
  have hw : words isspace overflowText.bytes = [decimal 4294967296] := by decide
  have hnum : (words isspace overflowText.bytes).map numberOf = [4294967296] := by decide
  have hr : Returns .lp64 1 overflowText (some [⟨0, 0⟩]) := ⟨[⟨0, 0⟩], ⟨2, by decide⟩, rfl⟩
  have ha : Accepts 1 overflowText := by
    refine ⟨fun w hm => ?_, by rw [hw]; exact le_refl 1⟩
    rw [hw] at hm
    rw [List.mem_singleton.mp hm]
    exact ⟨decimal 4294967296, [], (List.append_nil _).symm, decimal_ne_nil _,
      fun b => isdigit_decimal, fun b hb => absurd hb List.not_mem_nil⟩
  refine ⟨hnum, hr, fun h => ?_⟩
  have h0 := h overflowText _ ha hr
  rw [hnum] at h0
  exact absurd h0 (by decide)

end Swlib
