import Mathlib.Tactic.Ring
import Firmware.Lib.Cstr

/-!
# printf and scanf

What `%0wx` prints, and the directives of `scanf` on the bytes that are left of the input: `none`
is a matching failure.

* `hexMin`                    `%0wx`;
* `lit`, `blank`              ordinary characters and white space of a format;
* `word`, `hex`               `%s` and `%x`;
* `hex_hexMin`                what was printed is read back.
-/

set_option linter.unusedVariables false

namespace Scanf
open CStr

/-! ## printing -/

def lowerDigit (d : Nat) : UInt8 := if d < 10 then UInt8.ofNat (48 + d) else UInt8.ofNat (87 + d)

/-- the last `k` digits -/
def hexL (k n : Nat) : List UInt8 :=
  (List.range k).reverse.map fun i => lowerDigit (n / 16 ^ i % 16)

/-- `%0wx` -/
def hexMin (w n : Nat) : List UInt8 := hexL (max w (n.log2 / 4 + 1)) n

theorem reverse_range_succ {α : Type} (f : Nat → α) (k : Nat) :
    (List.range (k + 1)).reverse.map f = f k :: (List.range k).reverse.map f := by
  rw [List.range_succ, List.reverse_append, List.reverse_singleton, List.singleton_append,
    List.map_cons]

theorem hexL_succ (k n : Nat) : hexL (k + 1) n = lowerDigit (n / 16 ^ k % 16) :: hexL k n :=
  reverse_range_succ _ k

/-! ## scanning -/

/-- white space of the format -/
def blank (l : List UInt8) : List UInt8 := l.dropWhile isspace

def lit (t l : List UInt8) : Option (List UInt8) :=
  if t.isPrefixOf l then some (l.drop t.length) else none

/-- `%s` -/
def word (l : List UInt8) : Option (List UInt8 × List UInt8) :=
  let l := blank l
  let w := l.takeWhile fun b => !isspace b
  if w.length = 0 then none else some (w, l.drop w.length)

def sign : List UInt8 → Bool × List UInt8
  | 45 :: l => (true, l)
  | 43 :: l => (false, l)
  | l => (false, l)

def strip0x : List UInt8 → List UInt8
  | 48 :: x :: l => if x = 120 ∨ x = 88 then l else 48 :: x :: l
  | l => l

/-- `%x`: the `unsigned int` of an `unsigned long` of 64 bits -/
def hex (l : List UInt8) : Option (UInt32 × List UInt8) :=
  let (neg, l) := sign (blank l)
  let l := strip0x l
  let ds := l.takeWhile isxdigit
  let n := digits 16 0 ds
  if ds.length = 0 then none
  else if n > 18446744073709551615 then some (4294967295, l.drop ds.length)
  else some (if neg then 0 - UInt32.ofNat n else UInt32.ofNat n, l.drop ds.length)

/-! ## reading back -/

/-- the input goes on with something that is not white space -/
def Dense (l : List UInt8) : Prop := ∀ b ∈ l.head?, isspace b = false

theorem blank_of_dense {l : List UInt8} (h : Dense l) : blank l = l := by
  cases l with
  | nil => rfl
  | cons b l => exact List.dropWhile_cons_of_neg (by rw [h b rfl]; decide)

theorem blank_append {s l : List UInt8} (hs : ∀ b ∈ s, isspace b = true) (hl : Dense l) :
    blank (s ++ l) = l := by
  unfold blank
  rw [List.dropWhile_append_of_pos hs]
  exact blank_of_dense hl

theorem sign_cons {b : UInt8} {l : List UInt8} (hm : b ≠ 45) (hp : b ≠ 43) :
    sign (b :: l) = (false, b :: l) := by
  unfold sign
  split
  · next h => exact absurd (List.cons.inj h).1 hm
  · next h => exact absurd (List.cons.inj h).1 hp
  · rfl

theorem lit_append (t l : List UInt8) : lit t (t ++ l) = some l := by
  unfold lit
  rw [if_pos (List.isPrefixOf_iff_prefix.mpr (List.prefix_append t l)), List.drop_left]

/-- the first byte decides -/
theorem lit_of_head {t l : List UInt8} {b c : UInt8} (ht : t.head? = some b) (hl : l.head? = some c)
    (h : c ≠ b) : lit t l = none := by
  unfold lit
  rw [if_neg]
  intro hp
  obtain ⟨r, rfl⟩ := List.isPrefixOf_iff_prefix.mp hp
  rw [List.head?_append, ht] at hl
  exact h (Option.some.inj hl).symm

theorem word_append {w l : List UInt8} (h0 : w ≠ []) (hw : ∀ b ∈ w, isspace b = false)
    (hl : ∃ b ∈ l.head?, isspace b = true) : word (w ++ l) = some (w, l) := by
  obtain ⟨b, hb, hs⟩ := hl
  obtain ⟨l, rfl⟩ : ∃ r, l = b :: r := ⟨_, List.eq_cons_of_mem_head? hb⟩
  have hd : Dense (w ++ b :: l) := by
    intro c hc
    cases w with
    | nil => exact absurd rfl h0
    | cons d w => exact Option.some.inj hc ▸ hw d List.mem_cons_self
  have ht : (w ++ b :: l).takeWhile (fun b => !isspace b) = w := by
    rw [List.takeWhile_append_of_pos (fun c hc => by rw [hw c hc]; rfl),
      List.takeWhile_cons_of_neg (by rw [hs]; decide), List.append_nil]
  unfold word
  dsimp only
  rw [blank_of_dense hd, ht, if_neg (fun h => h0 (List.eq_nil_of_length_eq_zero h)), List.drop_left]

theorem lowerDigit_spec : ∀ d, d < 16 → digitVal (lowerDigit d) = some d ∧
    isspace (lowerDigit d) = false ∧ lowerDigit d ≠ 45 ∧ lowerDigit d ≠ 43 ∧
    lowerDigit d ≠ 120 ∧ lowerDigit d ≠ 88 := by decide

theorem isxdigit_lowerDigit {d : Nat} (h : d < 16) : isxdigit (lowerDigit d) = true := by
  unfold isxdigit
  rw [(lowerDigit_spec d h).1]
  exact decide_eq_true h

/-- the last `k` digits to a base are a number below its `k`-th power -/
theorem digits_base {base : Nat} (h0 : 0 < base) (h16 : base ≤ 16) (k n acc : Nat) :
    digits base acc ((List.range k).reverse.map fun i => lowerDigit (n / base ^ i % base))
      = acc * base ^ k + n % base ^ k := by
  induction k generalizing acc with
  | zero =>
    rw [Nat.pow_zero, Nat.mod_one, Nat.mul_one]
    rfl
  | succ k ih =>
    have hd : n / base ^ k % base < base := Nat.mod_lt _ h0
    rw [reverse_range_succ, digits, (lowerDigit_spec _ (by omega)).1]
    dsimp only
    rw [if_pos hd, ih, Nat.mod_pow_succ, Nat.pow_succ]
    ring

theorem digits_hexL (k n acc : Nat) : digits 16 acc (hexL k n) = acc * 16 ^ k + n % 16 ^ k :=
  digits_base (by decide) (by decide) k n acc

theorem mem_hexL {k n : Nat} {b : UInt8} (h : b ∈ hexL k n) : ∃ d, d < 16 ∧ b = lowerDigit d := by
  obtain ⟨i, -, rfl⟩ := List.mem_map.mp h
  exact ⟨_, Nat.mod_lt _ (by decide), rfl⟩

theorem lt_pow_hexMin (w n : Nat) : n < 16 ^ max w (n.log2 / 4 + 1) := by
  calc n < 2 ^ (n.log2 + 1) := Nat.lt_log2_self
    _ ≤ 2 ^ (4 * (n.log2 / 4 + 1)) := Nat.pow_le_pow_right (by decide) (by omega)
    _ = 16 ^ (n.log2 / 4 + 1) := by rw [Nat.pow_mul]
    _ ≤ _ := Nat.pow_le_pow_right (by decide) (Nat.le_max_right _ _)

/-- **What `%0wx` prints, `%x` reads.** -/
theorem hex_hexMin {w n : Nat} {l : List UInt8} (hw : 2 ≤ w) (hn : n < 4294967296)
    (hl : ∃ b ∈ l.head?, isxdigit b = false) :
    hex (hexMin w n ++ l) = some (UInt32.ofNat n, l) := by
  obtain ⟨j, hj⟩ : ∃ j, max w (n.log2 / 4 + 1) = j + 2 := ⟨max w (n.log2 / 4 + 1) - 2, by omega⟩
  have hmin : hexMin w n = lowerDigit (n / 16 ^ (j + 1) % 16) ::
      lowerDigit (n / 16 ^ j % 16) :: hexL j n := by
    unfold hexMin
    rw [hj, hexL_succ, hexL_succ]
  have h1 := lowerDigit_spec (n / 16 ^ (j + 1) % 16) (Nat.mod_lt _ (by decide))
  have h2 := lowerDigit_spec (n / 16 ^ j % 16) (Nat.mod_lt _ (by decide))
  have hb : blank (hexMin w n ++ l) = hexMin w n ++ l := by
    refine blank_of_dense fun b hb => ?_
    rw [hmin] at hb
    rw [← Option.some.inj hb]
    exact h1.2.1
  -- a digit is no sign, and the second one is no `x`
  have hsign : sign (hexMin w n ++ l) = (false, hexMin w n ++ l) := by
    rw [hmin]
    exact sign_cons h1.2.2.1 h1.2.2.2.1
  have hstrip : strip0x (hexMin w n ++ l) = hexMin w n ++ l := by
    rw [hmin]
    unfold strip0x
    split
    · next h =>
      have hx := (List.cons.inj (List.cons.inj h).2).1
      rw [if_neg (by rw [← hx]; simp [h2.2.2.2.2.1, h2.2.2.2.2.2]), h]
    · rfl
  have htake : (hexMin w n ++ l).takeWhile isxdigit = hexMin w n := by
    obtain ⟨b, hb, hx⟩ := hl
    obtain ⟨l, rfl⟩ : ∃ r, l = b :: r := ⟨_, List.eq_cons_of_mem_head? hb⟩
    rw [List.takeWhile_append_of_pos, List.takeWhile_cons_of_neg (by rw [hx]; decide),
      List.append_nil]
    intro c hc
    obtain ⟨d, hd, rfl⟩ := mem_hexL hc
    exact isxdigit_lowerDigit hd
  have hval : digits 16 0 (hexMin w n) = n := by
    unfold hexMin
    rw [digits_hexL, Nat.zero_mul, Nat.zero_add, Nat.mod_eq_of_lt (lt_pow_hexMin w n)]
  unfold hex
  rw [hb, hsign]
  dsimp only
  rw [hstrip, htake, hval, if_neg (by rw [hmin]; simp), if_neg (by omega), List.drop_left]
  rfl

end Scanf
