import Firmware.Lib.Limbs
import Firmware.Lib.Bits

/-!
# tinysrp: numbers in base 64

`t_fromb64` and `t_tob64` of `t_conv.c`.  There is no padding: a string is a number, and its bytes are the
digits of the same number in base 256, both without zeros in front.

* `fromb64`, `tob64`;
* `spread_value`      the bytes of a string have its value;
* `b64all_value`      the string of some bytes has theirs;
* `fromb64_tob64`     a round trip drops the zeros in front.
-/

set_option linter.unusedVariables false

namespace Ead
open Nat (ofDigits)
open Limbs Img

/-- `"0123456789ABCDEFGHIJKLMNOPQRSTUVWXYZabcdefghijklmnopqrstuvwxyz./"` -/
def b64table : List UInt8 :=
  (List.range 10).map (fun i => UInt8.ofNat (48 + i)) ++ (List.range 26).map (fun i => UInt8.ofNat (65 + i)) ++
    (List.range 26).map (fun i => UInt8.ofNat (97 + i)) ++ [46, 47]

/-- the big loop of `t_fromb64`, from the last digit and the last byte on; it leaves after any digit -/
def spread : List UInt8 → List UInt8
  | [] => []
  | [d0] => [d0]
  | [d0, d1] => [d0 ||| (d1 &&& 3) <<< 6, (d1 &&& 0x3c) >>> 2]
  | [d0, d1, d2] => [d0 ||| (d1 &&& 3) <<< 6, (d1 &&& 0x3c) >>> 2 ||| (d2 &&& 0xf) <<< 4, (d2 &&& 0x30) >>> 4]
  | [d0, d1, d2, d3] => [d0 ||| (d1 &&& 3) <<< 6, (d1 &&& 0x3c) >>> 2 ||| (d2 &&& 0xf) <<< 4,
      (d2 &&& 0x30) >>> 4 ||| d3 <<< 2, 0]
  | d0 :: d1 :: d2 :: d3 :: ds => (d0 ||| (d1 &&& 3) <<< 6) :: ((d1 &&& 0x3c) >>> 2 ||| (d2 &&& 0xf) <<< 4) ::
      ((d2 &&& 0x30) >>> 4 ||| d3 <<< 2) :: spread ds

/-- the digits of a string: blanks are skipped, and it ends where a character is not in the table -/
def b64digits (src : List UInt8) : List UInt8 :=
  ((src.dropWhile fun c => c = 32 ∨ c = 9 ∨ c = 10).takeWhile (· ∈ b64table)).map
    fun c => UInt8.ofNat (b64table.idxOf c)

/-- `none` is a read in front of the digits: there is not one -/
def fromb64 (src : List UInt8) : Option (List UInt8) :=
  if b64digits src = [] then none else some ((spread (b64digits src).reverse).reverse.dropWhile (· = 0))

/-- the four digits of `b0`, `b1` and `b2` -/
def quad (b0 b1 b2 : UInt8) : List UInt8 :=
  [(b0 &&& 0xfc) >>> 2, (b0 &&& 3) <<< 4 ||| (b1 &&& 0xf0) >>> 4, (b1 &&& 0xf) <<< 2 ||| (b2 &&& 0xc0) >>> 6,
    b2 &&& 0x3f]

/-- the digits of the whole groups -/
def quads : List UInt8 → List UInt8
  | b0 :: b1 :: b2 :: bs => quad b0 b1 b2 ++ quads bs
  | _ => []

/-- the bytes before the first whole group; with `notleading` the zeros in front are not written -/
def tob64 (src : List UInt8) : List UInt8 :=
  let first : List UInt8 :=
    match src.length % 3 with
    | 1 => quad 0 0 (src.getD 0 0)
    | 2 => quad 0 (src.getD 0 0) (src.getD 1 0)
    | _ => quad 0 0 0
  ((first ++ quads (src.drop (src.length % 3))).dropWhile (· = 0)).map fun c => b64table.getD c.toNat 0

/-- `"F//"` and `"5"` -/
example : fromb64 [70, 47, 47] = some [0xff, 0xff] ∧ tob64 [0xff, 0xff] = [70, 47, 47] ∧ fromb64 [53] = some [5] := by
  decide

/-! ## the bits -/

theorem or_shift {x y s : UInt8} (hs : s.toNat < 8) (hx : x.toNat < 2 ^ s.toNat) (hy : 2 ^ s.toNat * y.toNat < 256) :
    (x ||| y <<< s).toNat = x.toNat + 2 ^ s.toNat * y.toNat := by
  rw [UInt8.toNat_or, UInt8.toNat_shiftLeft, Nat.mod_eq_of_lt hs, Nat.shiftLeft_eq, Nat.mul_comm,
    Nat.mod_eq_of_lt hy, Nat.or_comm, ← Nat.two_pow_add_eq_or_of_lt hx, Nat.add_comm]

theorem shift_or {x y s : UInt8} (hs : s.toNat < 8) (hx : x.toNat < 2 ^ s.toNat) (hy : 2 ^ s.toNat * y.toNat < 256) :
    (y <<< s ||| x).toNat = x.toNat + 2 ^ s.toNat * y.toNat := by
  rw [UInt8.or_comm, or_shift hs hx hy]

/-- a mask of the lower bits -/
theorem and_low (x m : UInt8) {k : Nat} (hm : m.toNat = 2 ^ k - 1) : (x &&& m).toNat = x.toNat % 2 ^ k := by
  rw [UInt8.toNat_and, hm, Nat.and_two_pow_sub_one_eq_mod]

/-- a mask of the upper bits, and the shift that drops the others -/
theorem and_high (x : UInt8) : ((x &&& 0x3c) >>> 2).toNat = x.toNat / 4 % 16 ∧
    ((x &&& 0x30) >>> 4).toNat = x.toNat / 16 % 4 ∧ ((x &&& 0xfc) >>> 2).toNat = x.toNat / 4 ∧
    ((x &&& 0xf0) >>> 4).toNat = x.toNat / 16 ∧ ((x &&& 0xc0) >>> 6).toNat = x.toNat / 64 := by
  have h : ∀ n : Fin 256, ((UInt8.ofNat n &&& 0x3c) >>> 2).toNat = n / 4 % 16 ∧
      ((UInt8.ofNat n &&& 0x30) >>> 4).toNat = n / 16 % 4 ∧ ((UInt8.ofNat n &&& 0xfc) >>> 2).toNat = n / 4 ∧
      ((UInt8.ofNat n &&& 0xf0) >>> 4).toNat = n / 16 ∧ ((UInt8.ofNat n &&& 0xc0) >>> 6).toNat = n / 64 := by
    decide +kernel
  have hx := h ⟨x.toNat, x.toNat_lt⟩
  rwa [UInt8.ofNat_toNat] at hx

/-- every element is a digit -/
def Small (ds : List UInt8) : Prop := ∀ d ∈ ds, d.toNat < 64

theorem first_byte {d0 : UInt8} (h0 : d0.toNat < 64) (d1 : UInt8) :
    (d0 ||| (d1 &&& 3) <<< 6).toNat = d0.toNat + 64 * (d1.toNat % 4) := by
  have hm : (d1 &&& 3).toNat = d1.toNat % 2 ^ 2 := and_low d1 3 rfl
  have hlt := Nat.mod_lt d1.toNat (show 0 < 2 ^ 2 by decide)
  rw [or_shift (s := 6) (by decide) h0 (by rw [hm]; show 64 * _ < 256; omega), hm]
  rfl

theorem second_byte (d1 d2 : UInt8) :
    ((d1 &&& 0x3c) >>> 2 ||| (d2 &&& 0xf) <<< 4).toNat = d1.toNat / 4 % 16 + 16 * (d2.toNat % 16) := by
  have hm : (d2 &&& 0xf).toNat = d2.toNat % 2 ^ 4 := and_low d2 0xf rfl
  have hlt := Nat.mod_lt d2.toNat (show 0 < 2 ^ 4 by decide)
  have hh := (and_high d1).1
  rw [or_shift (s := 4) (by decide) (by rw [hh]; show _ < 16; omega) (by rw [hm]; show 16 * _ < 256; omega), hm, hh]
  rfl

theorem third_byte (d2 : UInt8) {d3 : UInt8} (h3 : d3.toNat < 64) :
    ((d2 &&& 0x30) >>> 4 ||| d3 <<< 2).toNat = d2.toNat / 16 % 4 + 4 * d3.toNat := by
  have hh := (and_high d2).2.1
  rw [or_shift (s := 2) (by decide) (by rw [hh]; show _ < 4; omega) (by show 4 * _ < 256; omega), hh]
  rfl

/-- **The bytes of a string have its value.** -/
theorem spread_value (ds : List UInt8) : Small ds →
    ofDigits 256 ((spread ds).map UInt8.toNat) = ofDigits 64 (ds.map UInt8.toNat) := by
  induction ds using spread.induct with
  | case1 => exact fun _ => rfl
  | case2 d0 =>
    intro _
    rfl
  | case3 d0 d1 =>
    intro h
    have h0 := h d0 (by simp)
    have h1 := h d1 (by simp)
    unfold spread
    simp only [List.map_cons, List.map_nil, Nat.ofDigits_cons, Nat.ofDigits_nil, first_byte h0, (and_high d1).1]
    omega
  | case4 d0 d1 d2 =>
    intro h
    have h0 := h d0 (by simp)
    have h1 := h d1 (by simp)
    have h2 := h d2 (by simp)
    unfold spread
    simp only [List.map_cons, List.map_nil, Nat.ofDigits_cons, Nat.ofDigits_nil, first_byte h0, second_byte,
      (and_high d2).2.1]
    omega
  | case5 d0 d1 d2 d3 =>
    intro h
    have h0 := h d0 (by simp)
    have h1 := h d1 (by simp)
    have h2 := h d2 (by simp)
    have h3 := h d3 (by simp)
    unfold spread
    simp only [List.map_cons, List.map_nil, Nat.ofDigits_cons, Nat.ofDigits_nil, first_byte h0, second_byte,
      third_byte d2 h3]
    show _ + 256 * (_ + 256 * (_ + 256 * (0 + 256 * 0))) = _
    omega
  | case6 d0 d1 d2 d3 ds hne ih =>
    intro h
    have h0 := h d0 (by simp)
    have h1 := h d1 (by simp)
    have h2 := h d2 (by simp)
    have h3 := h d3 (by simp)
    have hds := ih fun d hd => h d (by simp [hd])
    unfold spread
    simp only [List.map_cons, Nat.ofDigits_cons, first_byte h0, second_byte, third_byte d2 h3, hds]
    omega

/-! ## the way back -/

theorem quad_digits (b0 b1 b2 : UInt8) : (quad b0 b1 b2).map UInt8.toNat = [b0.toNat / 4,
    b0.toNat % 4 * 16 + b1.toNat / 16, b1.toNat % 16 * 4 + b2.toNat / 64, b2.toNat % 64] := by
  have l0 : (b0 &&& 3).toNat = b0.toNat % 2 ^ 2 := and_low b0 3 rfl
  have l1 : (b1 &&& 0xf).toNat = b1.toNat % 2 ^ 4 := and_low b1 0xf rfl
  have l2 : (b2 &&& 0x3f).toNat = b2.toNat % 2 ^ 6 := and_low b2 0x3f rfl
  obtain ⟨-, -, u0, -, -⟩ := and_high b0
  obtain ⟨-, -, -, u1, -⟩ := and_high b1
  obtain ⟨-, -, -, -, u2⟩ := and_high b2
  have hb1 := b1.toNat_lt
  have hb2 := b2.toNat_lt
  have m1 : ((b0 &&& 3) <<< 4 ||| (b1 &&& 0xf0) >>> 4).toNat = b1.toNat / 16 + 16 * (b0.toNat % 2 ^ 2) := by
    rw [shift_or (s := 4) (by decide) (by rw [u1]; show _ < 16; omega) (by rw [l0]; show 16 * _ < 256; omega), u1, l0]
    rfl
  have m2 : ((b1 &&& 0xf) <<< 2 ||| (b2 &&& 0xc0) >>> 6).toNat = b2.toNat / 64 + 4 * (b1.toNat % 2 ^ 4) := by
    rw [shift_or (s := 2) (by decide) (by rw [u2]; show _ < 4; omega) (by rw [l1]; show 4 * _ < 256; omega), u2, l1]
    rfl
  unfold quad
  rw [List.map_cons, List.map_cons, List.map_cons, List.map_cons, List.map_nil, u0, m1, m2, l2, Nat.add_comm,
    Nat.mul_comm, Nat.add_comm (_ / 64), Nat.mul_comm 4]
  rfl

theorem quad_small (b0 b1 b2 : UInt8) : Small (quad b0 b1 b2) := by
  intro d hd
  have hm := List.mem_map_of_mem (f := UInt8.toNat) hd
  have h0 := b0.toNat_lt
  have h1 := b1.toNat_lt
  have h2 := b2.toNat_lt
  rw [quad_digits] at hm
  simp only [List.mem_cons, List.not_mem_nil, or_false] at hm
  omega

theorem quads_small (bs : List UInt8) : Small (quads bs) := by
  induction bs using quads.induct with
  | case1 b0 b1 b2 bs ih =>
    intro d hd
    unfold quads at hd
    rcases List.mem_append.mp hd with hd | hd
    · exact quad_small b0 b1 b2 d hd
    · exact ih d hd
  | case2 bs h =>
    intro d hd
    rw [quads.eq_2 bs h] at hd
    exact absurd hd List.not_mem_nil

/-- a number with the digits `ds` after those of `n` -/
def after (b n : Nat) (ds : List UInt8) : Nat := ds.foldl (fun n d => b * n + d.toNat) n

theorem after_eq (b : Nat) (ds : List UInt8) : ofDigits b (ds.reverse.map UInt8.toNat) = after b 0 ds := by
  rw [Nat.ofDigits_eq_foldr, List.foldr_map, List.foldr_reverse]
  unfold after
  congr 1
  funext n d
  exact Nat.add_comm _ _

theorem after_quad (n : Nat) (b0 b1 b2 : UInt8) : after 64 n (quad b0 b1 b2) = after 256 n [b0, b1, b2] := by
  have h : after 64 n (quad b0 b1 b2) = ((quad b0 b1 b2).map UInt8.toNat).foldl (fun n d => 64 * n + d) n :=
    List.foldl_map.symm
  rw [h, quad_digits]
  show 64 * (64 * (64 * (64 * n + _) + _) + _) + _ = 256 * (256 * (256 * n + _) + _) + _
  have h0 := b0.toNat_lt
  have h1 := b1.toNat_lt
  have h2 := b2.toNat_lt
  omega

theorem after_quads (bs : List UInt8) (h3 : bs.length % 3 = 0) : ∀ n, after 64 n (quads bs) = after 256 n bs := by
  induction bs using quads.induct with
  | case1 b0 b1 b2 bs ih =>
    intro n
    unfold quads
    show ((quad b0 b1 b2) ++ quads bs).foldl _ n = _
    rw [List.foldl_append]
    have hq := after_quad n b0 b1 b2
    have hlen : bs.length % 3 = 0 := by
      rw [List.length_cons, List.length_cons, List.length_cons] at h3
      omega
    have hi := ih hlen (after 64 n (quad b0 b1 b2))
    rw [hq] at hi
    exact (congrArg (fun t => after 64 t (quads bs)) hq).trans hi
  | case2 bs h =>
    intro n
    match bs, h, h3 with
    | [], _, _ => rfl
    | [b0], _, h3 => simp at h3
    | [b0, b1], _, h3 => simp at h3
    | b0 :: b1 :: b2 :: bs, h, _ => exact absurd rfl (h b0 b1 b2 bs)

/-- what `tob64` writes, before the zeros in front are left out -/
def b64all (src : List UInt8) : List UInt8 :=
  (match src.length % 3 with
    | 1 => quad 0 0 (src.getD 0 0)
    | 2 => quad 0 (src.getD 0 0) (src.getD 1 0)
    | _ => quad 0 0 0) ++ quads (src.drop (src.length % 3))

theorem b64all_value (src : List UInt8) : after 64 0 (b64all src) = after 256 0 src ∧ Small (b64all src) := by
  have hd : (src.drop (src.length % 3)).length % 3 = 0 := by
    rw [List.length_drop]
    omega
  have hm := Nat.mod_lt src.length (show 0 < 3 by decide)
  unfold b64all
  refine ⟨?_, ?_⟩
  · unfold after
    rw [List.foldl_append]
    refine (after_quads _ hd _).trans ?_
    match h : src.length % 3 with
    | 0 => rfl
    | 1 =>
      match src, h with
      | b :: bs, h => exact congrArg (fun n => after 256 n bs) (after_quad 0 0 0 b)
    | 2 =>
      match src, h with
      | b :: c :: bs, h => exact congrArg (fun n => after 256 n bs) (after_quad 0 0 b c)
      | [b], h => simp at h
    | n + 3 => omega
  · intro d hd
    rcases List.mem_append.mp hd with hd | hd
    · split at hd
      · exact quad_small _ _ _ d hd
      · exact quad_small _ _ _ d hd
      · exact quad_small _ _ _ d hd
    · exact quads_small _ d hd

/-! ## without zeros in front -/

/-- the digits of a number, as they are written -/
theorem dropZeros_eq {b : Nat} (hb : 1 < b) {l : List UInt8} (h : ∀ d ∈ l, d.toNat < b) :
    ((l.dropWhile (· = 0)).reverse.map UInt8.toNat) = Nat.digits b (after b 0 l) := by
  have hbel : Below b (l.reverse.map UInt8.toNat) := by
    intro x hx
    obtain ⟨d, hd, rfl⟩ := List.mem_map.mp hx
    exact h d (List.mem_reverse.mp hd)
  rw [← after_eq, ← trim_eq_digits hb hbel]
  unfold trim List.rdropWhile
  rw [← List.map_reverse, List.reverse_reverse, List.dropWhile_map, List.map_reverse]
  congr 2
  apply congrArg (fun p => l.dropWhile p)
  funext d
  show decide (d = 0) = decide (d.toNat = 0)
  exact decide_eq_decide.mpr ⟨fun h => by rw [h]; rfl, fun h => UInt8.toNat_inj.mp h⟩

theorem ofBytes_eq_after (l : List UInt8) : Bits.ofBytes l = after 256 0 l := rfl

/-- the bytes of a number are those without zeros in front -/
theorem dropZeros_unique {l k : List UInt8} (h : Bits.ofBytes l = Bits.ofBytes k) :
    l.dropWhile (· = 0) = k.dropWhile (· = 0) := by
  have hl := dropZeros_eq (b := 256) (by decide) (l := l) fun d _ => d.toNat_lt
  have hk := dropZeros_eq (b := 256) (by decide) (l := k) fun d _ => d.toNat_lt
  rw [ofBytes_eq_after, ofBytes_eq_after] at h
  rw [h, ← hk] at hl
  exact List.reverse_injective (List.map_injective_iff.mpr (fun a b h => UInt8.toNat_inj.mp h) hl)

theorem b64table_digit {n : Nat} (h : n < 64) : b64table.getD n 0 ∈ b64table ∧
    UInt8.ofNat (b64table.idxOf (b64table.getD n 0)) = UInt8.ofNat n ∧
    ¬(b64table.getD n 0 = 32 ∨ b64table.getD n 0 = 9 ∨ b64table.getD n 0 = 10) := by
  have hall : ∀ n : Fin 64, b64table.getD n 0 ∈ b64table ∧
      UInt8.ofNat (b64table.idxOf (b64table.getD n 0)) = UInt8.ofNat n ∧
      ¬(b64table.getD n 0 = 32 ∨ b64table.getD n 0 = 9 ∨ b64table.getD n 0 = 10) := by
    decide +kernel
  exact hall ⟨n, h⟩

/-- a string of the table is read digit for digit -/
theorem b64digits_table {ds : List UInt8} (h : Small ds) : b64digits (ds.map fun c => b64table.getD c.toNat 0) = ds := by
  unfold b64digits
  have hblank : (ds.map fun c => b64table.getD c.toNat 0).dropWhile (fun c => c = 32 ∨ c = 9 ∨ c = 10) =
      ds.map fun c => b64table.getD c.toNat 0 := by
    cases ds with
    | nil => rfl
    | cons d ds =>
      rw [List.map_cons, List.dropWhile_cons_of_neg]
      exact fun hc => (b64table_digit (h d List.mem_cons_self)).2.2 (of_decide_eq_true hc)
  rw [hblank, List.takeWhile_eq_self_iff.mpr, List.map_map]
  · conv_rhs => rw [← List.map_id ds]
    apply List.map_congr_left
    intro d hd
    show UInt8.ofNat (b64table.idxOf (b64table.getD d.toNat 0)) = d
    rw [(b64table_digit (h d hd)).2.1, UInt8.ofNat_toNat]
  · intro c hc
    obtain ⟨d, hd, rfl⟩ := List.mem_map.mp hc
    exact decide_eq_true (b64table_digit (h d hd)).1

theorem after_dropZeros {b : Nat} (hb : 1 < b) {l : List UInt8} (h : ∀ d ∈ l, d.toNat < b) :
    after b 0 (l.dropWhile (· = 0)) = after b 0 l := by
  rw [← after_eq, dropZeros_eq hb h, Nat.ofDigits_digits]

theorem b64digits_small (src : List UInt8) : Small (b64digits src) := by
  intro d hd
  obtain ⟨c, hc, rfl⟩ := List.mem_map.mp hd
  have hmem : decide (c ∈ b64table) = true := List.mem_takeWhile_imp (p := fun c => decide (c ∈ b64table)) hc
  have hm := List.idxOf_lt_length_iff.mpr (of_decide_eq_true hmem)
  have hl : b64table.length = 64 := by decide
  rw [UInt8.toNat_ofNat']
  omega

theorem spread_after {ds : List UInt8} (h : Small ds) : after 256 0 (spread ds.reverse).reverse = after 64 0 ds := by
  rw [← after_eq, List.reverse_reverse, spread_value _ fun d hd => h d (List.mem_reverse.mp hd), after_eq]

/-- **What a string stands for**: its bytes are those of the number with its digits. -/
theorem fromb64_value {src bytes : List UInt8} (h : fromb64 src = some bytes) :
    Bits.ofBytes bytes = after 64 0 (b64digits src) ∧ bytes.dropWhile (· = 0) = bytes := by
  unfold fromb64 at h
  split at h
  · exact absurd h (Option.some_ne_none _).symm
  · have hb := Option.some.inj h
    rw [← hb]
    refine ⟨?_, List.dropWhile_idempotent _ _⟩
    rw [ofBytes_eq_after, after_dropZeros (by decide) fun d _ => d.toNat_lt, spread_after (b64digits_small src)]

/-- the string of some bytes, read again -/
theorem b64digits_tob64 (src : List UInt8) : b64digits (tob64 src) = (b64all src).dropWhile (· = 0) :=
  b64digits_table fun d hd => (b64all_value src).2 d (List.dropWhile_subset _ hd)

/-- **A round trip**: the bytes come back, without the zeros in front. -/
theorem fromb64_tob64 {src : List UInt8} (h : Bits.ofBytes src ≠ 0) :
    fromb64 (tob64 src) = some (src.dropWhile (· = 0)) := by
  obtain ⟨hv, hs⟩ := b64all_value src
  have hds := after_dropZeros (by decide) hs
  rw [hv, ← b64digits_tob64] at hds
  have hne : b64digits (tob64 src) ≠ [] := by
    intro hn
    rw [hn] at hds
    exact h hds.symm
  obtain ⟨bytes, hb⟩ : ∃ bytes, fromb64 (tob64 src) = some bytes := by
    unfold fromb64
    rw [if_neg hne]
    exact ⟨_, rfl⟩
  obtain ⟨hvalue, hzeros⟩ := fromb64_value hb
  rw [hb, ← hzeros]
  refine congrArg some (dropZeros_unique ?_)
  rw [hvalue, hds, ofBytes_eq_after]

/-- a string of seven characters -/
theorem fromb64_tob64_five : fromb64 (tob64 [0, 5, 255, 0, 129]) = some [5, 255, 0, 129] :=
  fromb64_tob64 (show Bits.ofBytes [0, 5, 255, 0, 129] ≠ 0 by decide)

end Ead
