import Mathlib.Data.List.Basic
import Mathlib.Data.List.GetD
import Mathlib.Tactic.Linarith

/-!
# Byte images: slices, patches, checked accesses, words

A memory area, a file or a flash device is a list of cells.

* `slice m off n`    the `n` cells from position `off` on;
* `poke m off d`     the image `m` with `d` laid over it from position `off` on;
* `load`, `store`    the same with a bounds check: `none` is an access outside the image;
* `put32`, `get32`   a 32-bit word in memory, for either byte order, and `put16`;
* `intAdd`           addition of C `int`s: `none` is a signed overflow;
* `Cells`            a list read with a default behind its end.

`poke_split` is the rule the proofs use: patching the middle of `a ++ b ++ c` replaces `b`.
-/

set_option linter.unusedVariables false

namespace Img

variable {α : Type}

def slice (m : List α) (off n : Nat) : List α := (m.drop off).take n

def poke (m : List α) (off : Nat) (d : List α) : List α :=
  m.take off ++ (d ++ m.drop (off + d.length))

/-- read `n` cells at `off`; `none` outside the image -/
def load (m : List α) (off n : Nat) : Option (List α) :=
  if off + n ≤ m.length then some (slice m off n) else none

/-- write `d` at `off`; `none` outside the image -/
def store (m : List α) (off : Nat) (d : List α) : Option (List α) :=
  if off + d.length ≤ m.length then some (poke m off d) else none

/-! ## slices -/

theorem slice_length (m : List α) (off n : Nat) (h : off + n ≤ m.length) :
    (slice m off n).length = n := by
  unfold slice
  rw [List.length_take, List.length_drop]
  omega

theorem slice_append_left (a b : List α) (off n : Nat) (h : off + n ≤ a.length) :
    slice (a ++ b) off n = slice a off n := by
  unfold slice
  rw [List.drop_append_of_le_length (by omega), List.take_append_of_le_length]
  rw [List.length_drop]
  omega

theorem slice_append_right (a b : List α) (off n : Nat) (h : a.length ≤ off) :
    slice (a ++ b) off n = slice b (off - a.length) n := by
  unfold slice
  rw [List.drop_append, List.drop_eq_nil_of_le h, List.nil_append]

/-- the middle of a three-part image -/
theorem slice_mid (a b c : List α) : slice (a ++ (b ++ c)) a.length b.length = b := by
  rw [slice_append_right _ _ _ _ (Nat.le_refl _), Nat.sub_self]
  unfold slice
  rw [List.drop_zero, List.take_left]

theorem slice_of_split {a b c m : List α} {off n : Nat} (hm : m = a ++ (b ++ c))
    (ha : a.length = off) (hb : b.length = n) : slice m off n = b := by
  subst hm ha hb
  exact slice_mid a b c

theorem slice_slice (m : List α) {b n k j : Nat} (h : k + j ≤ n) :
    slice (slice m b n) k j = slice m (b + k) j := by
  unfold slice
  rw [List.drop_take, List.take_take, Nat.min_eq_left (by omega), List.drop_drop]

/-! ## patches -/

theorem slice_add (m : List α) (off n k : Nat) :
    slice m off (n + k) = slice m off n ++ slice m (off + n) k := by
  unfold slice
  rw [List.take_add, List.drop_drop]

theorem drop_slice (m : List α) (off n : Nat) : m.drop off = slice m off n ++ m.drop (off + n) := by
  unfold slice
  rw [← List.drop_drop, List.take_append_drop]

/-- what is before a slice, the slice, and the rest -/
theorem split_slice (m : List α) (off n : Nat) :
    m = m.take off ++ (slice m off n ++ m.drop (off + n)) := by
  rw [← drop_slice, List.take_append_drop]

theorem poke_split (a b c d : List α) (h : d.length = b.length) :
    poke (a ++ (b ++ c)) a.length d = a ++ (d ++ c) := by
  unfold poke
  rw [List.take_left, h, ← List.drop_drop, List.drop_left, List.drop_left]

theorem poke_of_split {a b c d m : List α} {off : Nat} (hm : m = a ++ (b ++ c))
    (ha : a.length = off) (h : d.length = b.length) : poke m off d = a ++ (d ++ c) := by
  subst hm ha
  exact poke_split a b c d h

theorem poke_length (m : List α) (off : Nat) (d : List α) (h : off + d.length ≤ m.length) :
    (poke m off d).length = m.length := by
  unfold poke
  rw [List.length_append, List.length_append, List.length_take, List.length_drop]
  omega

theorem poke_nil (m : List α) (off : Nat) : poke m off [] = m := by
  unfold poke
  rw [List.nil_append, List.length_nil, Nat.add_zero, List.take_append_drop]

theorem slice_poke_self (m : List α) (off : Nat) (d : List α) (h : off + d.length ≤ m.length) :
    slice (poke m off d) off d.length = d :=
  slice_of_split rfl (by rw [List.length_take]; omega) rfl

theorem slice_poke_before (m : List α) (off off' n : Nat) (d : List α) (h : off' + n ≤ off)
    (hm : off ≤ m.length) : slice (poke m off d) off' n = slice m off' n := by
  have hl : off' + n ≤ (m.take off).length := by rw [List.length_take]; omega
  unfold poke
  rw [slice_append_left _ _ _ _ hl]
  conv_rhs => rw [← List.take_append_drop off m]
  rw [slice_append_left _ _ _ _ hl]

theorem drop_poke (m : List α) (off k : Nat) (d : List α) (h : off + d.length ≤ k)
    (hm : off + d.length ≤ m.length) : (poke m off d).drop k = m.drop k := by
  unfold poke
  have e : (m.take off).length = off := by rw [List.length_take]; omega
  rw [List.drop_append, List.drop_eq_nil_of_le (by omega), List.nil_append, e, List.drop_append,
    List.drop_eq_nil_of_le (by omega), List.nil_append, List.drop_drop]
  congr 1
  omega

theorem slice_poke_after (m : List α) (off off' n : Nat) (d : List α) (h : off + d.length ≤ off')
    (hm : off + d.length ≤ m.length) : slice (poke m off d) off' n = slice m off' n := by
  unfold slice
  rw [drop_poke m off off' d h hm]

/-- a patch over a patch -/
theorem poke_poke (m d d' : List α) (off : Nat) (h : d'.length = d.length)
    (hm : off + d.length ≤ m.length) : poke (poke m off d) off d' = poke m off d' := by
  have ht : (m.take off).length = off := by
    rw [List.length_take]
    omega
  have hp : poke m off d = m.take off ++ (d ++ m.drop (off + d.length)) := rfl
  rw [poke_of_split hp ht h]
  unfold poke
  rw [h]

/-- the patch of a slice, laid back -/
theorem poke_slice (m d : List α) (b n k : Nat) (h : k + d.length ≤ n) (hm : b + n ≤ m.length) :
    poke m b (poke (slice m b n) k d) = poke m (b + k) d := by
  have hs := slice_length m b n hm
  have hb : (m.take b).length = b := by
    rw [List.length_take]
    omega
  have hk : ((slice m b n).take k).length = k := by
    rw [List.length_take]
    omega
  have hd : d.length = (slice (slice m b n) k d.length).length := (slice_length _ _ _ (by omega)).symm
  -- the slice has three parts, and so has the image
  have e1 := split_slice (slice m b n) k d.length
  have e2 := split_slice m b n
  have e3 : m = (m.take b ++ (slice m b n).take k) ++ (slice (slice m b n) k d.length ++
      ((slice m b n).drop (k + d.length) ++ m.drop (b + n))) := by
    conv_lhs => rw [e2, e1]
    simp only [List.append_assoc]
  have hp : (poke (slice m b n) k d).length = (slice m b n).length :=
    poke_length _ _ _ (by omega)
  rw [poke_of_split e2 hb hp, poke_of_split e1 hk hd,
    poke_of_split e3 (by rw [List.length_append, hb, hk]) hd]
  simp only [List.append_assoc]

/-- a patch with what is there already -/
theorem poke_slice_self (m : List α) {off n : Nat} (h : off + n ≤ m.length) :
    poke m off (slice m off n) = m := by
  unfold poke
  rw [slice_length m off n h, ← split_slice]

/-- a cell that is not patched -/
theorem poke_getElem? (m d : List α) (off i : Nat) (hm : off + d.length ≤ m.length)
    (h : i < off ∨ off + d.length ≤ i) : (poke m off d)[i]? = m[i]? := by
  have ht : (m.take off).length = off := by
    rw [List.length_take]
    omega
  unfold poke
  rcases h with h | h
  · rw [List.getElem?_append_left (by omega), List.getElem?_take_of_lt h]
  · rw [List.getElem?_append_right (by omega), ht, List.getElem?_append_right (by omega),
      List.getElem?_drop]
    congr 1
    omega

/-- every cell of a patched image -/
theorem poke_getD (m d : List α) (off i : Nat) (a : α) (hm : off + d.length ≤ m.length) :
    (poke m off d).getD i a
      = if off ≤ i ∧ i < off + d.length then d.getD (i - off) a else m.getD i a := by
  have ht : (m.take off).length = off := by
    rw [List.length_take]
    omega
  rw [List.getD_eq_getElem?_getD]
  split
  · next h =>
    unfold poke
    rw [List.getElem?_append_right (by omega), ht, List.getElem?_append_left (by omega),
      List.getD_eq_getElem?_getD]
  · next h => rw [poke_getElem? m d off i hm (by omega), List.getD_eq_getElem?_getD]

theorem slice_getD (m : List α) (off n i : Nat) (a : α) (h : i < n) :
    (slice m off n).getD i a = m.getD (off + i) a := by
  unfold slice
  rw [List.getD_eq_getElem?_getD, List.getElem?_take_of_lt h, List.getElem?_drop,
    List.getD_eq_getElem?_getD]

/-- a patch behind a patch -/
theorem poke_append (m a b : List α) (off : Nat) (h : off + a.length ≤ m.length) :
    poke (poke m off a) (off + a.length) b = poke m off (a ++ b) := by
  have ht : (m.take off).length = off := by
    rw [List.length_take]
    omega
  have h1 : (poke m off a).take (off + a.length) = m.take off ++ a := by
    unfold poke
    rw [← List.append_assoc]
    exact List.take_left' (by rw [List.length_append, ht])
  rw [show poke (poke m off a) (off + a.length) b = (poke m off a).take (off + a.length) ++
    (b ++ (poke m off a).drop (off + a.length + b.length)) from rfl, h1,
    drop_poke m off _ a (by omega) h]
  unfold poke
  rw [List.length_append, List.append_assoc, List.append_assoc, Nat.add_assoc]

theorem poke_cons (m : List α) {off : Nat} (x : α) (d : List α) (h : off < m.length) :
    poke (poke m off [x]) (off + 1) d = poke m off (x :: d) := poke_append m [x] d off h

/-- patches that fill a range from its end -/
theorem poke_poke_front (dest a b : List α) (h : a.length + b.length ≤ dest.length) :
    poke (poke dest a.length b) 0 a = a ++ b ++ dest.drop (a.length + b.length) := by
  have e : poke dest a.length b
      = dest.take a.length ++ (b ++ dest.drop (a.length + b.length)) := rfl
  have e' : poke (poke dest a.length b) 0 a = [] ++ (a ++ (b ++ dest.drop (a.length + b.length))) :=
    poke_of_split (b := dest.take a.length) (by rw [e, List.nil_append]) rfl
      (by rw [List.length_take]; omega)
  rw [e', List.nil_append, List.append_assoc]

/-! ## checked accesses -/

theorem load_eq_some {m : List α} {off n : Nat} {d : List α} :
    load m off n = some d ↔ off + n ≤ m.length ∧ d = slice m off n := by
  unfold load
  split
  · next h => simp [h, eq_comm]
  · next h => simp [h]

theorem store_eq_some {m m' d : List α} {off : Nat} :
    store m off d = some m' ↔ off + d.length ≤ m.length ∧ m' = poke m off d := by
  unfold store
  split
  · next h => simp [h, eq_comm]
  · next h => simp [h]

theorem store_length {m m' d : List α} {off : Nat} (h : store m off d = some m') :
    m'.length = m.length := by
  obtain ⟨hb, rfl⟩ := store_eq_some.mp h
  exact poke_length m off d hb

theorem load_split {a b c m : List α} {off n : Nat} (hm : m = a ++ (b ++ c))
    (ha : a.length = off) (hb : b.length = n) : load m off n = some b := by
  refine load_eq_some.mpr ⟨?_, (slice_of_split hm ha hb).symm⟩
  subst hm ha hb
  simp

theorem store_split {a b c d m : List α} {off : Nat} (hm : m = a ++ (b ++ c))
    (ha : a.length = off) (h : d.length = b.length) : store m off d = some (a ++ (d ++ c)) := by
  refine store_eq_some.mpr ⟨?_, (poke_of_split hm ha h).symm⟩
  subst hm ha
  simp [h]

/-- a write right behind a known beginning -/
theorem store_behind {p r m d : List α} {off : Nat} (hm : m = p ++ r) (hp : p.length = off)
    (h : d.length ≤ r.length) : store m off d = some (p ++ (d ++ r.drop d.length)) := by
  refine store_split (b := r.take d.length) ?_ hp ?_
  · rw [hm, List.take_append_drop]
  · rw [List.length_take]; omega

theorem load_slice {m : List α} {b n k j : Nat} (h : k + j ≤ n) (hm : b + n ≤ m.length) :
    load (slice m b n) k j = load m (b + k) j := by
  unfold load
  rw [slice_length m b n hm, slice_slice m h, if_pos h, if_pos (by omega)]

/-- a read from a patch -/
theorem load_poke {m d : List α} {off k j : Nat} (h : k + j ≤ d.length)
    (hm : off + d.length ≤ m.length) : load (poke m off d) (off + k) j = load d k j := by
  have hs := slice_poke_self m off d hm
  have hl := load_slice (m := poke m off d) h (by rw [poke_length m off d hm]; exact hm)
  rw [hs] at hl
  exact hl.symm

/-- a read in front of a patch -/
theorem load_poke_before {m d : List α} {off k j : Nat} (h : k + j ≤ off)
    (hm : off + d.length ≤ m.length) : load (poke m off d) k j = load m k j := by
  unfold load
  rw [poke_length m off d hm, slice_poke_before m off k j d h (by omega)]

theorem load_poke_self {m d : List α} {off : Nat} (hm : off + d.length ≤ m.length) :
    load (poke m off d) off d.length = some d :=
  load_eq_some.mpr ⟨by rw [poke_length m off d hm]; exact hm, (slice_poke_self m off d hm).symm⟩

/-- a write into a patch -/
theorem store_poke {m d e : List α} {off k : Nat} (h : k + e.length ≤ d.length)
    (hm : off + d.length ≤ m.length) :
    store (poke m off d) (off + k) e = (store d k e).map (poke m off) := by
  have hs := slice_poke_self m off d hm
  have hp := poke_slice (poke m off d) e off d.length k h (by rw [poke_length m off d hm]; exact hm)
  have he : (poke d k e).length = d.length := poke_length d k e h
  rw [hs, poke_poke m d _ off he hm] at hp
  unfold store
  rw [poke_length m off d hm, if_pos (by omega), if_pos h, Option.map_some, hp]

theorem load_drop {m : List α} {k off n : Nat} (h : k ≤ m.length) :
    load (m.drop k) off n = load m (k + off) n := by
  unfold load slice
  rw [List.length_drop, List.drop_drop]
  congr 1
  exact propext ⟨fun _ => by omega, fun _ => by omega⟩

theorem load_append_right {a m : List α} {off n : Nat} (h : a.length ≤ off) :
    load (a ++ m) off n = load m (off - a.length) n := by
  unfold load
  rw [List.length_append, slice_append_right a m off n h]
  congr 1
  exact propext ⟨fun _ => by omega, fun _ => by omega⟩

theorem load_skip {a m : List α} {k n j : Nat} (h : a.length = k) :
    load (a ++ m) (n + k) j = load m n j := by
  rw [load_append_right (by omega), h, Nat.add_sub_cancel]

theorem load_append_left {a m : List α} {off n : Nat} {d : List α}
    (h : load a off n = some d) : load (a ++ m) off n = some d := by
  obtain ⟨h1, h2⟩ := load_eq_some.mp h
  refine load_eq_some.mpr ⟨by rw [List.length_append]; omega, ?_⟩
  rw [slice_append_left a m off n h1, h2]

end Img

/-! ## words -/

namespace Word
open Img

def zeros (n : Nat) : List UInt8 := List.replicate n 0

theorem zeros_length (n : Nat) : (zeros n).length = n := List.length_replicate

/-- the bytes of a 32-bit word, least significant first -/
def le32 (w : UInt32) : List UInt8 :=
  [UInt8.ofNat w.toNat, UInt8.ofNat (w.toNat / 256), UInt8.ofNat (w.toNat / 65536),
    UInt8.ofNat (w.toNat / 16777216)]

/-- a 32-bit word as it lies in memory; `big` is the byte order -/
def put32 (big : Bool) (w : UInt32) : List UInt8 := if big then (le32 w).reverse else le32 w

def ofLe32 : List UInt8 → UInt32
  | [a, b, c, d] =>
    UInt32.ofNat (a.toNat + 256 * b.toNat + 65536 * c.toNat + 16777216 * d.toNat)
  | _ => 0

def get32 (big : Bool) (l : List UInt8) : UInt32 := ofLe32 (if big then l.reverse else l)

def put16 (big : Bool) (w : UInt16) : List UInt8 :=
  if big then [UInt8.ofNat (w.toNat / 256), UInt8.ofNat w.toNat]
  else [UInt8.ofNat w.toNat, UInt8.ofNat (w.toNat / 256)]

/-- the 16-bit word in two bytes -/
def get16 (big : Bool) (l : List UInt8) : UInt16 :=
  let l := if big then l.reverse else l
  UInt16.ofNat ((l.getD 0 0).toNat + 256 * (l.getD 1 0).toNat)

@[simp] theorem put32_length (big : Bool) (w : UInt32) : (put32 big w).length = 4 := by
  cases big <;> rfl

@[simp] theorem put16_length (big : Bool) (w : UInt16) : (put16 big w).length = 2 := by
  cases big <;> rfl

@[simp] theorem get16_put16 (big : Bool) (w : UInt16) : get16 big (put16 big w) = w := by
  apply UInt16.toNat_inj.mp
  have hw := w.toNat_lt
  cases big <;>
    simp [put16, get16, UInt8.toNat_ofNat', UInt16.toNat_ofNat'] <;> omega

theorem ofLe32_le32 (w : UInt32) : ofLe32 (le32 w) = w := by
  apply UInt32.toNat_inj.mp
  have hw := w.toNat_lt
  simp only [le32, ofLe32, UInt8.toNat_ofNat', UInt32.toNat_ofNat']
  omega

@[simp] theorem get32_put32 (big : Bool) (w : UInt32) : get32 big (put32 big w) = w := by
  cases big
  · exact ofLe32_le32 w
  · show ofLe32 (le32 w).reverse.reverse = w
    rw [List.reverse_reverse, ofLe32_le32]

theorem le32_ofLe32 (a b c d : UInt8) : le32 (ofLe32 [a, b, c, d]) = [a, b, c, d] := by
  have ha := a.toNat_lt
  have hb := b.toNat_lt
  have hc := c.toNat_lt
  have hd := d.toNat_lt
  have e (x : UInt8) (n : Nat) (h : n % 256 = x.toNat) : UInt8.ofNat n = x :=
    UInt8.toNat_inj.mp (by rw [UInt8.toNat_ofNat']; exact h)
  simp only [le32, ofLe32, UInt32.toNat_ofNat']
  rw [e a _ (by omega), e b _ (by omega), e c _ (by omega), e d _ (by omega)]

/-- four bytes are a word in one way -/
theorem get32_eq_iff {big : Bool} {l : List UInt8} {w : UInt32} (h : l.length = 4) :
    get32 big l = w ↔ l = put32 big w := by
  constructor
  · rintro rfl
    obtain ⟨a, b, c, d, rfl⟩ : ∃ a b c d, l = [a, b, c, d] := by
      match l, h with
      | [a, b, c, d], _ => exact ⟨a, b, c, d, rfl⟩
    cases big
    · exact (le32_ofLe32 a b c d).symm
    · show _ = (le32 (ofLe32 [d, c, b, a])).reverse
      rw [le32_ofLe32]
      rfl
  · rintro rfl
    exact get32_put32 big w

/-- the word at position `off` of an image -/
def load32 (big : Bool) (m : List UInt8) (off : Nat) : Option UInt32 :=
  (load m off 4).map (get32 big)

def store32 (big : Bool) (m : List UInt8) (off : Nat) (w : UInt32) : Option (List UInt8) :=
  store m off (put32 big w)

theorem load32_split {big : Bool} {w : UInt32} {a c m : List UInt8} {off : Nat}
    (hm : m = a ++ (put32 big w ++ c)) (ha : a.length = off) : load32 big m off = some w := by
  unfold load32
  rw [load_split hm ha (put32_length big w), Option.map_some, get32_put32]

theorem load32_poke {big : Bool} {m : List UInt8} {off : Nat} {w : UInt32}
    (h : off ≤ m.length) : load32 big (poke m off (put32 big w)) off = some w :=
  load32_split rfl (by rw [List.length_take]; omega)

theorem load32_skip {big : Bool} {a m : List UInt8} {k n : Nat} (h : a.length = k) :
    load32 big (a ++ m) (n + k) = load32 big m n := by
  unfold load32
  rw [load_skip h]

theorem load32_head {big : Bool} {w : UInt32} {m : List UInt8} :
    load32 big (put32 big w ++ m) 0 = some w :=
  load32_split (List.nil_append _).symm rfl

theorem load32_put32 {big : Bool} {w : UInt32} {m : List UInt8} {n : Nat} :
    load32 big (put32 big w ++ m) (n + 4) = load32 big m n := load32_skip (put32_length big w)

theorem load32_put16 {big : Bool} {w : UInt16} {m : List UInt8} {n : Nat} :
    load32 big (put16 big w ++ m) (n + 2) = load32 big m n := load32_skip (put16_length big w)

theorem load32_append_left {big : Bool} {a m : List UInt8} {off : Nat} {w : UInt32}
    (h : load32 big a off = some w) : load32 big (a ++ m) off = some w := by
  unfold load32 at h ⊢
  obtain ⟨d, h1, h2⟩ := Option.map_eq_some_iff.mp h
  rw [load_append_left h1, Option.map_some, h2]

end Word

/-! ## C integers -/

namespace CInt

/-- the range of a 32-bit `int` -/
def inRange (i : Int) : Prop := -2147483648 ≤ i ∧ i ≤ 2147483647

instance (i : Int) : Decidable (inRange i) := inferInstanceAs (Decidable (_ ∧ _))

/-- signed addition; `none` is an overflow (undefined behaviour) -/
def intAdd (a b : Int) : Option Int := if inRange (a + b) then some (a + b) else none

/-- conversion to `int` -/
def wrap (i : Int) : Int := (i + 2147483648) % 4294967296 - 2147483648

theorem wrap_of_inRange {i : Int} (h : inRange i) : wrap i = i := by
  unfold inRange at h
  unfold wrap
  omega

theorem intAdd_eq_some {a b c : Int} : intAdd a b = some c ↔ inRange (a + b) ∧ c = a + b := by
  unfold intAdd
  split
  · next h => simp [h, eq_comm]
  · next h => simp [h]

end CInt

/-! ## cells -/

namespace Cells

variable {α : Type} {d : α}

theorem getD_set (l : List α) (i k : Nat) (x : α) (hi : i < l.length) :
    (l.set i x).getD k d = if k = i then x else l.getD k d := by
  rw [List.getD_eq_getElem?_getD, List.getD_eq_getElem?_getD, List.getElem?_set]
  by_cases h : i = k
  · rw [if_pos h, if_pos hi, if_pos h.symm]
    rfl
  · rw [if_neg h, if_neg (Ne.symm h)]

theorem getD_map_range (f : Nat → α) {n k : Nat} (h : k < n) : ((List.range n).map f).getD k d = f k := by
  rw [List.getD_eq_getElem?_getD, List.getElem?_map, List.getElem?_range h]
  rfl

end Cells
