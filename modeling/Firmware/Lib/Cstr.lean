import Mathlib.Algebra.Group.Nat.Defs
import Mathlib.Data.List.Basic
import Mathlib.Data.List.TakeWhile

/-!
# C strings

`CStr` is a string without a NUL, as C code passes it.  The functions of the C library are
given on a memory area, that is on the list of the bytes from the pointer on; `none` means that
the function leaves the area.

* `strlen`, `strchr`, `cstr`   length, search, and the string itself;
* `strtoul`                    the low 32 bits of `strtoul(s, NULL, 0)`;
* `hexU`                       the digits `%0wX` prints for a number below `16^w`.
-/

/-- a string without a NUL -/
structure CStr where
  bytes : List UInt8
  nul_free : 0 ∉ bytes
deriving DecidableEq

namespace CStr

def length (s : CStr) : Nat := s.bytes.length

/-- `strlen` of the string at the start of `m` -/
def strlen : List UInt8 → Option Nat
  | [] => none
  | b :: m => if b = 0 then some 0 else (strlen m).map (· + 1)

/-- `strchr` in the string at the start of `m`: the index of the first `c`, if there is one -/
def strchr (c : UInt8) : List UInt8 → Option (Option Nat)
  | [] => none
  | b :: m =>
    if b = c then some (some 0)
    else if b = 0 then some none
    else (strchr c m).map (Option.map (· + 1))

/-- the string at the start of `m` -/
def cstr (m : List UInt8) : Option CStr :=
  if 0 ∈ m then
    some ⟨m.takeWhile (· ≠ 0), fun h => by simpa using List.mem_takeWhile_imp h⟩
  else none

theorem ext {s t : CStr} (h : s.bytes = t.bytes) : s = t := by
  obtain ⟨s, hs⟩ := s
  obtain ⟨t, ht⟩ := t
  subst h
  rfl

theorem strlen_append (s r : List UInt8) (h : 0 ∉ s) : strlen (s ++ 0 :: r) = some s.length := by
  induction s with
  | nil => rfl
  | cons b s ih =>
    rw [List.mem_cons, not_or] at h
    have hb : ¬ b = 0 := fun e => h.1 e.symm
    show (if b = 0 then some 0 else (strlen (s ++ 0 :: r)).map (· + 1)) = _
    rw [if_neg hb, ih h.2]
    rfl

theorem strchr_append (c : UInt8) (s r : List UInt8) (h : 0 ∉ s) (hc : c ∉ s) :
    strchr c (s ++ c :: r) = some (some s.length) := by
  induction s with
  | nil => simp [strchr]
  | cons b s ih =>
    rw [List.mem_cons, not_or] at h hc
    have h0 : ¬ b = 0 := fun e => h.1 e.symm
    have h1 : ¬ b = c := fun e => hc.1 e.symm
    show (if b = c then some (some 0) else if b = 0 then some none
      else (strchr c (s ++ c :: r)).map (Option.map (· + 1))) = _
    rw [if_neg h1, if_neg h0, ih h.2 hc.2]
    rfl

/-- a successful search cuts the string at the first `c` -/
theorem strchr_some {c : UInt8} {l : List UInt8} {i : Nat} (h : strchr c l = some (some i)) :
    ∃ s r, l = s ++ c :: r ∧ s.length = i ∧ c ∉ s ∧ 0 ∉ s := by
  induction l generalizing i with
  | nil => exact absurd h (by simp [strchr])
  | cons b l ih =>
    unfold strchr at h
    by_cases hb : b = c
    · rw [if_pos hb] at h
      have hi : 0 = i := by simpa using h
      exact ⟨[], l, by rw [hb]; rfl, hi, by simp, by simp⟩
    · rw [if_neg hb] at h
      by_cases h0 : b = 0
      · rw [if_pos h0] at h
        exact absurd h (by simp)
      · rw [if_neg h0] at h
        obtain ⟨o, ho, h'⟩ := Option.map_eq_some_iff.mp h
        obtain ⟨j, rfl, rfl⟩ := Option.map_eq_some_iff.mp h'
        obtain ⟨s, r, rfl, hs, hc, hz⟩ := ih ho
        refine ⟨b :: s, r, rfl, by rw [List.length_cons, hs], ?_, ?_⟩
        · rw [List.mem_cons, not_or]
          exact ⟨fun e => hb e.symm, hc⟩
        · rw [List.mem_cons, not_or]
          exact ⟨fun e => h0 e.symm, hz⟩

/-- the string ends before the search finds anything -/
theorem strchr_absent {c : UInt8} {s : List UInt8} (h : 0 ∉ s) (hc : c ∉ s) (h0 : c ≠ 0)
    (r : List UInt8) : strchr c (s ++ 0 :: r) = some none := by
  induction s with
  | nil => simp [strchr, h0.symm]
  | cons b s ih =>
    rw [List.mem_cons, not_or] at h hc
    show (if b = c then some (some 0) else if b = 0 then some none
      else (strchr c (s ++ 0 :: r)).map (Option.map (· + 1))) = _
    rw [if_neg fun e => hc.1 e.symm, if_neg fun e => h.1 e.symm, ih h.2 hc.2]
    rfl

theorem mem_of_strchr_none {c : UInt8} {l : List UInt8} (h : strchr c l = some none) : 0 ∈ l := by
  induction l with
  | nil => exact absurd h (by simp [strchr])
  | cons b l ih =>
    unfold strchr at h
    by_cases hb : b = c
    · rw [if_pos hb] at h
      exact absurd h (by simp)
    · rw [if_neg hb] at h
      by_cases h0 : b = 0
      · rw [h0]
        exact List.mem_cons_self
      · rw [if_neg h0] at h
        obtain ⟨o, ho, h'⟩ := Option.map_eq_some_iff.mp h
        rw [Option.map_eq_none_iff.mp h'] at ho
        exact List.mem_cons_of_mem b (ih ho)

theorem mem_of_strlen {l : List UInt8} {n : Nat} (h : strlen l = some n) : 0 ∈ l := by
  induction l generalizing n with
  | nil => exact absurd h (by simp [strlen])
  | cons b l ih =>
    unfold strlen at h
    by_cases h0 : b = 0
    · rw [h0]
      exact List.mem_cons_self
    · rw [if_neg h0] at h
      obtain ⟨k, hk, -⟩ := Option.map_eq_some_iff.mp h
      exact List.mem_cons_of_mem b (ih hk)

theorem cstr_append (s : CStr) (r : List UInt8) : cstr (s.bytes ++ 0 :: r) = some s := by
  unfold cstr
  rw [if_pos (by simp)]
  congr 1
  apply ext
  show (s.bytes ++ 0 :: r).takeWhile (· ≠ 0) = s.bytes
  rw [List.takeWhile_append_of_pos]
  · simp
  · intro b hb
    have : b ≠ 0 := fun e => s.nul_free (e ▸ hb)
    simpa using this

/-! ## literals and numbers -/

def ascii (l : List Char) : List UInt8 := l.map fun c => UInt8.ofNat c.toNat

/-- a string constant -/
def lit (l : List Char) (h : 0 ∉ ascii l) : CStr := ⟨ascii l, h⟩

def isspace (b : UInt8) : Bool := b = 32 || (9 ≤ b && b ≤ 13)

def digitVal (b : UInt8) : Option Nat :=
  if 48 ≤ b ∧ b ≤ 57 then some (b.toNat - 48)
  else if 97 ≤ b ∧ b ≤ 122 then some (b.toNat - 87)
  else if 65 ≤ b ∧ b ≤ 90 then some (b.toNat - 55)
  else none

/-- the number of the leading digits in base `base` -/
def digits (base : Nat) : Nat → List UInt8 → Nat
  | acc, [] => acc
  | acc, b :: l =>
    match digitVal b with
    | some d => if d < base then digits base (acc * base + d) l else acc
    | none => acc

def isxdigit (b : UInt8) : Bool := (digitVal b).any (· < 16)

/-- base `0`: `0x` before a hexadecimal digit, a leading `0`, or decimal -/
def number : List UInt8 → Nat
  | 48 :: x :: d :: l =>
    if (x = 120 ∨ x = 88) ∧ isxdigit d then digits 16 0 (d :: l) else digits 8 0 (x :: d :: l)
  | 48 :: l => digits 8 0 l
  | l => digits 10 0 l

/-- `strtoul(s, NULL, 0)` stored in 32 bits, where `max` is `ULONG_MAX`: `2^32 - 1` or `2^64 - 1` -/
def strtoul (max : Nat) (s : CStr) : UInt32 :=
  let sat (n : Nat) (neg : Bool) : UInt32 :=
    if n > max then UInt32.ofNat max else if neg then 0 - UInt32.ofNat n else UInt32.ofNat n
  match s.bytes.dropWhile isspace with
  | 45 :: l => sat (number l) true
  | 43 :: l => sat (number l) false
  | l => sat (number l) false

def hexDigit (d : Nat) : UInt8 := if d < 10 then UInt8.ofNat (48 + d) else UInt8.ofNat (55 + d)

/-- the `w` digits of `%0wX` -/
def hexU (w n : Nat) : List UInt8 :=
  (List.range w).reverse.map fun i => hexDigit (n / 16 ^ i % 16)

theorem hexDigit_ne_zero : ∀ d, d < 16 → hexDigit d ≠ 0 := by decide

/-- `sprintf(buf, "0x%0wX", n)` -/
def hex0x (w n : Nat) : CStr where
  bytes := 48 :: 120 :: hexU w n
  nul_free := by
    intro h
    simp only [hexU, List.mem_cons, List.mem_map] at h
    rcases h with h | h | ⟨i, _, h⟩
    · exact absurd h (by decide)
    · exact absurd h (by decide)
    · exact hexDigit_ne_zero _ (Nat.mod_lt _ (by decide)) h

theorem hex0x_length (w n : Nat) : (hex0x w n).length = w + 2 := by
  simp [hex0x, length, hexU]

/-! ## printed numbers read back -/

theorem digitVal_hexDigit : ∀ d, d < 16 → digitVal (hexDigit d) = some d := by decide

theorem hexU_succ (w n : Nat) : hexU (w + 1) n = hexDigit (n / 16 ^ w % 16) :: hexU w n := by
  unfold hexU
  rw [List.range_succ, List.reverse_append]
  rfl

theorem digits_hexU (w n acc : Nat) : digits 16 acc (hexU w n) = acc * 16 ^ w + n % 16 ^ w := by
  induction w generalizing acc with
  | zero => simp [hexU, digits, Nat.mod_one]
  | succ w ih =>
    have hd : n / 16 ^ w % 16 < 16 := Nat.mod_lt _ (by decide)
    rw [hexU_succ, digits, digitVal_hexDigit _ hd]
    simp only [if_pos hd]
    rw [ih, Nat.pow_succ, Nat.mod_mul, Nat.add_mul, Nat.mul_assoc, Nat.mul_comm 16 (16 ^ w),
      Nat.mul_comm (n / 16 ^ w % 16)]
    omega

/-- `strtoul` reads what `sprintf` printed -/
theorem strtoul_hex0x {max w n : Nat} (hw : 1 ≤ w) (hn : n < 16 ^ w) (hmax : n ≤ max) :
    strtoul max (hex0x w n) = UInt32.ofNat n := by
  obtain ⟨w, rfl⟩ : ∃ k, w = k + 1 := ⟨w - 1, by omega⟩
  have hd : n / 16 ^ w % 16 < 16 := Nat.mod_lt _ (by decide)
  have hx : isxdigit (hexDigit (n / 16 ^ w % 16)) = true := by
    unfold isxdigit
    rw [digitVal_hexDigit _ hd]
    simpa using hd
  have hnum : number (48 :: 120 :: hexU (w + 1) n) = n := by
    rw [hexU_succ, number, if_pos ⟨Or.inl rfl, hx⟩, ← hexU_succ, digits_hexU, Nat.zero_mul,
      Nat.zero_add, Nat.mod_eq_of_lt hn]
  have hsp : (hex0x (w + 1) n).bytes.dropWhile isspace = 48 :: 120 :: hexU (w + 1) n := rfl
  unfold strtoul
  rw [hsp]
  show (if number (48 :: 120 :: hexU (w + 1) n) > max then UInt32.ofNat max
    else UInt32.ofNat (number (48 :: 120 :: hexU (w + 1) n))) = _
  rw [hnum, if_neg (by omega)]

end CStr
