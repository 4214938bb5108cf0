import Firmware.Safeloader.Image
import Firmware.Safeloader.Read

/-!
# SafeLoader images: what tplink-safeloader writes, osafeloader reads

* `text`, `listing`       the table of a list of partitions, as text and as it is listed;
* `putPartitions_eq`      the writer lays out text, its end, and the data;
* `fscanfPart_line`       a line is read back;
* `listParts_text`, `findPart_some`, `findPart_none`   the loops over the text;
* `factoryImage_read`     images of less than 2 GiB.
-/

set_option linter.unusedVariables false

namespace Safeloader
open Img Word Scanf

/-! ## the table -/

def total (parts : List ImagePartition) : Nat := (parts.map fun p => p.data.length).sum

def dataOf (parts : List ImagePartition) : List UInt8 := parts.flatMap fun p => p.data

/-- the lines of the partitions from `base` on -/
def text : Nat → List ImagePartition → List UInt8
  | _, [] => []
  | base, p :: ps =>
    line p.name (UInt32.ofNat base) (UInt32.ofNat p.data.length) ++ text (base + p.data.length) ps

/-- what is listed for them -/
def listing : Nat → List ImagePartition → List Osafeloader.Listed
  | _, [] => []
  | base, p :: ps =>
    ⟨p.name, base, (base + p.data.length : Nat)⟩ :: listing (base + p.data.length) ps

theorem total_cons (p : ImagePartition) (ps : List ImagePartition) :
    total (p :: ps) = p.data.length + total ps := rfl

theorem total_append (ps qs : List ImagePartition) : total (ps ++ qs) = total ps + total qs := by
  unfold total
  rw [List.map_append, List.sum_append]

theorem dataOf_cons (p : ImagePartition) (ps : List ImagePartition) :
    dataOf (p :: ps) = p.data ++ dataOf ps := rfl

theorem dataOf_length (ps : List ImagePartition) : (dataOf ps).length = total ps := by
  induction ps with
  | nil => rfl
  | cons p ps ih => rw [dataOf_cons, List.length_append, ih, total_cons]

/-- a name that `%s` reads as one word into `char name[32]` -/
def GoodName (name : CStr) : Prop :=
  1 ≤ name.length ∧ name.length ≤ 31 ∧ ∀ b ∈ name.bytes, CStr.isspace b = false

theorem goodName_of_any {name : CStr} (h1 : 1 ≤ name.length) (h31 : name.length ≤ 31)
    (h : name.bytes.any CStr.isspace = false) : GoodName name :=
  ⟨h1, h31, fun b hb => by simpa using List.any_eq_false.mp h b hb⟩

/-- the partition is in the flash table and fits there -/
def InFlash (flash : List FlashPartition) (p : ImagePartition) : Prop :=
  ∃ f, (flash.find? fun f => f.name = p.name) = some f ∧ p.data.length ≤ f.size.toNat

/-! ## writing -/

/-- what stands behind the text: the zero byte, or no line at all -/
def Stops (l : List UInt8) : Prop := l.head? = some 0 ∨ l.head? = some 0xff

theorem putPartitions_eq {flash : List FlashPartition} (ps : List ImagePartition)
    (base : Nat) {t x d r : List UInt8} (hx : t.length + x.length = 0x800)
    (hd : 0x800 + d.length = base) (hr : r.length = total ps) (hs : Stops x)
    (ht : t.length + (text base ps).length < 0x800) (hf : ∀ p ∈ ps, InFlash flash p) :
    ∃ e, t.length + (text base ps).length + e.length = 0x800 ∧ Stops e ∧
      putPartitions flash ps t.length base (t ++ (x ++ (d ++ r)))
        = some (t ++ (text base ps ++ (e ++ (d ++ dataOf ps)))) := by
  induction ps generalizing base t x d r with
  | nil =>
    obtain rfl := List.eq_nil_of_length_eq_zero hr
    exact ⟨x, hx, hs, rfl⟩
  | cons p ps ih =>
    obtain ⟨f, hfind, hsize⟩ := hf p List.mem_cons_self
    generalize hl : line p.name (UInt32.ofNat base) (UInt32.ofNat p.data.length) = l
    have htext : text base (p :: ps) = l ++ text (base + p.data.length) ps := by rw [← hl]; rfl
    rw [htext, List.length_append] at ht
    rw [total_cons] at hr
    have h1 : store (t ++ (x ++ (d ++ r))) base p.data
        = some (t ++ (x ++ (d ++ (p.data ++ r.drop p.data.length)))) := by
      rw [store_behind (p := t ++ (x ++ d)) (r := r) (by simp only [List.append_assoc])
        (by simp only [List.length_append]; omega) (by omega)]
      simp only [List.append_assoc]
    have h2 : store (t ++ (x ++ (d ++ (p.data ++ r.drop p.data.length)))) t.length (l ++ [0])
        = some ((t ++ l) ++ ((0 :: x.drop (l.length + 1)) ++ ((d ++ p.data) ++
          r.drop p.data.length))) := by
      rw [store_behind rfl rfl (by simp only [List.length_append, List.length_singleton]; omega),
        List.drop_append_of_le_length (by rw [List.length_append, List.length_singleton]; omega)]
      simp only [List.append_assoc, List.length_append, List.length_singleton, List.cons_append,
        List.nil_append]
    obtain ⟨e, he, hse, hput⟩ := ih (base + p.data.length) (t := t ++ l)
      (x := 0 :: x.drop (l.length + 1)) (d := d ++ p.data) (r := r.drop p.data.length)
      (by rw [List.length_append, List.length_cons, List.length_drop]; omega)
      (by rw [List.length_append]; omega) (by rw [List.length_drop]; omega) (.inl rfl)
      (by rw [List.length_append]; omega) (fun q hq => hf q (List.mem_cons_of_mem p hq))
    refine ⟨e, by rw [htext, ← he, List.length_append, List.length_append]; omega, hse, ?_⟩
    unfold putPartitions
    simp only [hfind, Option.bind_eq_bind, Option.bind_some, h1, hl]
    rw [if_neg (by omega), if_neg (by omega), h2, Option.bind_some, ← List.length_append, hput, htext,
      dataOf_cons]
    simp only [List.append_assoc]

/-! ## reading -/

theorem dense_of_head {l : List UInt8} {b : UInt8} (h : l.head? = some b)
    (hb : CStr.isspace b = false) : Dense l := by
  intro c hc
  rw [h] at hc
  exact Option.some.inj hc ▸ hb

theorem hexInt_hexMin {n : Nat} {l : List UInt8} (hn : n < 2147483648)
    (hl : ∃ b ∈ l.head?, CStr.isxdigit b = false) :
    Osafeloader.hexInt (hexMin 5 (UInt32.ofNat n).toNat ++ l) = some ((n : Int), l) := by
  have hu := UInt32.toNat_ofNat_of_lt' (show n < 4294967296 by omega)
  unfold Osafeloader.hexInt
  rw [hu, hex_hexMin (by decide) (by omega) hl, Option.map_some]
  dsimp only
  rw [hu, CInt.wrap_of_inRange (by unfold CInt.inRange; omega)]

theorem blank_space {l : List UInt8} (hl : Dense l) : blank ([32] ++ l) = l :=
  blank_append (List.all_eq_true.mp rfl) hl

theorem blank_lineEnd {l : List UInt8} (hl : Dense l) : blank (lineEnd ++ l) = l :=
  blank_append (List.all_eq_true.mp rfl) hl

theorem scanSizes_line {name : CStr} {b n : Nat} {rest : List UInt8} (hb : b < 2147483648)
    (hn : n < 2147483648) (hr : Dense rest) :
    Osafeloader.scanSizes name (base0x ++ (hexMin 5 (UInt32.ofNat b).toNat ++ (size0x ++
      (hexMin 5 (UInt32.ofNat n).toNat ++ (lineEnd ++ rest))))) = some (⟨name, b, n⟩, rest) := by
  have h1 (l : List UInt8) : blank (base0x ++ l) = Osafeloader.base ++ ([32] ++
      (Osafeloader.hex0x ++ l)) := rfl
  have h2 (l : List UInt8) : blank ([32] ++ (Osafeloader.hex0x ++ l)) = Osafeloader.hex0x ++ l := rfl
  have h3 (l : List UInt8) : blank (size0x ++ l) = Osafeloader.size ++ ([32] ++
      (Osafeloader.hex0x ++ l)) := rfl
  unfold Osafeloader.scanSizes
  rw [h1, lit_append, Option.bind_eq_bind, Option.bind_some, h2, lit_append, Option.bind_eq_bind,
    Option.bind_some, hexInt_hexMin hb ⟨32, rfl, by decide⟩]
  simp only [Option.bind_some, h3, h2, lit_append]
  rw [hexInt_hexMin hn ⟨9, rfl, by decide⟩]
  simp only [Option.bind_some, blank_lineEnd hr]

/-- **A line** is read back. -/
theorem fscanfPart_line {name : CStr} {b n : Nat} {rest : List UInt8} (hg : GoodName name)
    (hb : b < 2147483648) (hn : n < 2147483648) (hr : Dense rest) :
    Osafeloader.fscanfPart (line name (UInt32.ofNat b) (UInt32.ofNat n) ++ rest)
      = some (some (⟨name, b, n⟩, rest)) := by
  obtain ⟨h1, h31, hw⟩ := hg
  have hne : name.bytes ≠ [] := by
    intro h
    unfold CStr.length at h1
    rw [h] at h1
    exact absurd h1 (by decide)
  have hsplit : line name (UInt32.ofNat b) (UInt32.ofNat n) ++ rest = Osafeloader.fwupPtn ++ ([32] ++
      (name.bytes ++ (base0x ++ (hexMin 5 (UInt32.ofNat b).toNat ++ (size0x ++
        (hexMin 5 (UInt32.ofNat n).toNat ++ (lineEnd ++ rest))))))) := by
    unfold line
    simp only [List.append_assoc]
    rfl
  have hname (l : List UInt8) : Dense (name.bytes ++ l) := by
    intro c hc
    rw [List.head?_append_of_ne_nil _ hne] at hc
    exact hw c (List.mem_of_mem_head? hc)
  unfold Osafeloader.fscanfPart
  rw [hsplit, lit_append, Option.bind_some, blank_space (hname _),
    word_append hne hw ⟨32, rfl, by decide⟩]
  dsimp only
  rw [if_neg (by exact Nat.not_lt.mpr h31), CStr.cstr_append, Option.bind_some,
    scanSizes_line hb hn hr]

theorem fscanfPart_stop {l : List UInt8} (h : Stops l) : Osafeloader.fscanfPart l = some none := by
  have hn : lit Osafeloader.fwupPtn l = none := by
    rcases h with h | h
    · exact lit_of_head (b := 102) rfl h (by decide)
    · exact lit_of_head (b := 102) rfl h (by decide)
  unfold Osafeloader.fscanfPart
  rw [hn]
  rfl

theorem dense_text (base : Nat) (ps : List ImagePartition) {e : List UInt8} (he : Stops e)
    (r : List UInt8) : Dense (text base ps ++ (e ++ r)) := by
  cases ps with
  | cons p ps => exact dense_of_head (b := 102) rfl (by decide)
  | nil =>
    rcases he with h | h
    · exact dense_of_head (b := 0) (by rw [text, List.nil_append, List.head?_append, h]; rfl) (by decide)
    · exact dense_of_head (b := 255) (by rw [text, List.nil_append, List.head?_append, h]; rfl)
        (by decide)

theorem stops_append {e : List UInt8} (he : Stops e) (r : List UInt8) : Stops (e ++ r) := by
  unfold Stops at he ⊢
  rw [List.head?_append]
  rcases he with h | h
  · exact .inl (by rw [h]; rfl)
  · exact .inr (by rw [h]; rfl)

theorem text_cons_append (base : Nat) (p : ImagePartition) (ps : List ImagePartition)
    (r : List UInt8) : text base (p :: ps) ++ r = line p.name (UInt32.ofNat base)
      (UInt32.ofNat p.data.length) ++ (text (base + p.data.length) ps ++ r) := by
  rw [text, List.append_assoc]

/-- one round of `osafeloader_info` -/
theorem listParts_line {p : ImagePartition} {base fuel : Nat} {rest : List UInt8}
    (hg : GoodName p.name) (hlt : base + p.data.length < 2147483648) (hr : Dense rest) :
    Osafeloader.listParts (fuel + 1) (line p.name (UInt32.ofNat base) (UInt32.ofNat p.data.length) ++
      rest) = (Osafeloader.listParts fuel rest).map fun l =>
        ⟨p.name, base, (base + p.data.length : Nat)⟩ :: l := by
  have hadd : CInt.intAdd (base : Int) (p.data.length : Int)
      = some ((base + p.data.length : Nat) : Int) :=
    CInt.intAdd_eq_some.mpr ⟨by unfold CInt.inRange; omega, by omega⟩
  rw [Osafeloader.listParts, fscanfPart_line hg (by omega) (by omega) hr]
  dsimp only
  rw [hadd, Option.bind_eq_bind, Option.bind_some]
  cases Osafeloader.listParts fuel rest <;> rfl

/-- one round of `osafeloader_extract` -/
theorem findPart_line (name : CStr) {p : ImagePartition} {base fuel : Nat} {rest : List UInt8}
    (hg : GoodName p.name) (hlt : base + p.data.length < 2147483648) (hr : Dense rest) :
    Osafeloader.findPart name (fuel + 1) (line p.name (UInt32.ofNat base)
      (UInt32.ofNat p.data.length) ++ rest) =
        if p.name = name then some (some (⟨p.name, base, p.data.length⟩, rest))
        else Osafeloader.findPart name fuel rest := by
  rw [Osafeloader.findPart, fscanfPart_line hg (by omega) (by omega) hr]

theorem listParts_text (ps : List ImagePartition) (base : Nat) {fuel : Nat} {e r : List UInt8}
    (he : Stops e) (hg : ∀ p ∈ ps, GoodName p.name) (hlt : base + total ps < 2147483648)
    (hfuel : ps.length < fuel) :
    Osafeloader.listParts fuel (text base ps ++ (e ++ r)) = some (listing base ps) := by
  induction ps generalizing base fuel with
  | nil =>
    obtain ⟨fuel, rfl⟩ : ∃ k, fuel = k + 1 := ⟨fuel - 1, by omega⟩
    rw [Osafeloader.listParts, text, List.nil_append, fscanfPart_stop (stops_append he r)]
    rfl
  | cons p ps ih =>
    rw [List.length_cons] at hfuel
    rw [total_cons] at hlt
    obtain ⟨fuel, rfl⟩ : ∃ k, fuel = k + 1 := ⟨fuel - 1, by omega⟩
    rw [text_cons_append, listParts_line (hg p List.mem_cons_self) (by omega) (dense_text _ ps he r),
      ih _ (fun q hq => hg q (List.mem_cons_of_mem p hq)) (by omega) (by omega)]
    rfl

theorem findPart_none (name : CStr) (ps : List ImagePartition) (base : Nat) {fuel : Nat}
    {e r : List UInt8} (he : Stops e) (hg : ∀ p ∈ ps, GoodName p.name)
    (hlt : base + total ps < 2147483648) (hfuel : ps.length < fuel)
    (hn : name ∉ ps.map ImagePartition.name) :
    Osafeloader.findPart name fuel (text base ps ++ (e ++ r)) = some none := by
  induction ps generalizing base fuel with
  | nil =>
    obtain ⟨fuel, rfl⟩ : ∃ k, fuel = k + 1 := ⟨fuel - 1, by omega⟩
    rw [Osafeloader.findPart, text, List.nil_append, fscanfPart_stop (stops_append he r)]
  | cons p ps ih =>
    rw [List.length_cons] at hfuel
    rw [total_cons] at hlt
    rw [List.map_cons, List.mem_cons, not_or] at hn
    obtain ⟨fuel, rfl⟩ : ∃ k, fuel = k + 1 := ⟨fuel - 1, by omega⟩
    rw [text_cons_append, findPart_line name (hg p List.mem_cons_self) (by omega)
      (dense_text _ ps he r), if_neg (fun h => hn.1 h.symm)]
    exact ih _ (fun q hq => hg q (List.mem_cons_of_mem p hq)) (by omega) (by omega) hn.2

/-- the first line with the name -/
theorem findPart_some (p : ImagePartition) (ls rs : List ImagePartition) (base fuel : Nat)
    {e r : List UInt8} (he : Stops e) (hg : ∀ q ∈ ls ++ p :: rs, GoodName q.name)
    (hlt : base + total (ls ++ p :: rs) < 2147483648) (hfuel : ls.length < fuel)
    (hn : p.name ∉ ls.map ImagePartition.name) :
    ∃ rest, Osafeloader.findPart p.name fuel (text base (ls ++ p :: rs) ++ (e ++ r))
      = some (some (⟨p.name, (base + total ls : Nat), p.data.length⟩, rest)) := by
  induction ls generalizing base fuel with
  | nil =>
    obtain ⟨fuel, rfl⟩ : ∃ k, fuel = k + 1 := ⟨fuel - 1, by omega⟩
    rw [List.nil_append, total_cons] at hlt
    refine ⟨text (base + p.data.length) rs ++ (e ++ r), ?_⟩
    rw [List.nil_append, text_cons_append, findPart_line p.name (hg p List.mem_cons_self) (by omega)
      (dense_text _ rs he r), if_pos rfl]
    rfl
  | cons q ls ih =>
    rw [List.length_cons] at hfuel
    rw [List.cons_append, total_cons] at hlt
    rw [List.map_cons, List.mem_cons, not_or] at hn
    obtain ⟨fuel, rfl⟩ : ∃ k, fuel = k + 1 := ⟨fuel - 1, by omega⟩
    obtain ⟨rest, hrest⟩ := ih (base + q.data.length) fuel
      (fun s hs => hg s (List.mem_cons_of_mem q hs)) (by omega) (by omega) hn.2
    refine ⟨rest, ?_⟩
    rw [List.cons_append, text_cons_append, findPart_line p.name (hg q List.mem_cons_self) (by omega)
      (dense_text _ _ he r), if_neg (fun h => hn.1 h.symm), hrest, total_cons, Nat.add_assoc]

/-- the copy of a partition is the reading loop of a `size_t` -/
theorem copyLoop_eq (fuel : Nat) {n : Nat} (hn : n < 2147483648) (rest out : List UInt8) :
    Osafeloader.copyLoop fuel rest n out
      = (((Fread.loop 1024 (· ++ ·) fuel rest n out).1 : Int),
        (Fread.loop 1024 (· ++ ·) fuel rest n out).2) := by
  induction fuel generalizing rest n out with
  | zero => rfl
  | succ fuel ih =>
    have hs : Osafeloader.sizeOfInt n = n := by
      unfold Osafeloader.sizeOfInt
      omega
    have hl : (rest.take (min 1024 n)).length ≤ n := by
      rw [List.length_take]
      omega
    have hw : CInt.wrap ((n : Int) - (rest.take (min 1024 n)).length)
        = ((n - (rest.take (min 1024 n)).length : Nat) : Int) := by
      rw [CInt.wrap_of_inRange (by unfold CInt.inRange; omega)]
      omega
    rw [Osafeloader.copyLoop, Fread.loop, hs, hw]
    split
    · rfl
    · exact ih (by omega) _ _

theorem copyPart_eq (file rest : List UInt8) {e : Osafeloader.Entry} {b : Nat} {d r : List UInt8}
    (hb : e.base = b) (hs : e.size = d.length) (hlt : d.length < 2147483648)
    (hf : file.drop (0x1014 + b) = d ++ r) : Osafeloader.copyPart file e rest = (0, d) := by
  have hpos : (Osafeloader.headerLen + 0x1000 + e.base : Int) = (0x1014 + b : Nat) := by
    rw [hb]
    unfold Osafeloader.headerLen
    omega
  have hlen : d.length < (d ++ r).length + 1 := by
    rw [List.length_append]
    omega
  unfold Osafeloader.copyPart
  dsimp only
  rw [hpos, if_neg (show ¬ ((0x1014 + b : Nat) : Int) < 0 by omega), Int.toNat_natCast, hf, hs,
    copyLoop_eq _ hlt, Fread.loop_append (by decide) hlen, List.take_left, List.length_append]
  dsimp only
  rw [show d.length - (d.length + r.length) = 0 by omega]
  rfl

/-! ## the image -/

/-- the image before the vendor information and the table -/
theorem putSize_eq {n : Nat} (h : 0x1014 ≤ n) :
    ∃ image, store (List.replicate n 0xff) 0 (put32 true (UInt32.ofNat n)) = some image ∧
      image.length = n ∧ slice image 0 4 = put32 true (UInt32.ofNat n) ∧
      image.drop 0x1014 = List.replicate (n - 0x1014) 0xff := by
  have h4 : (put32 true (UInt32.ofNat n)).length = 4 := put32_length _ _
  have hfit : 0 + (put32 true (UInt32.ofNat n)).length ≤ (List.replicate n (0xff : UInt8)).length := by
    rw [List.length_replicate]
    omega
  refine ⟨_, store_eq_some.mpr ⟨hfit, rfl⟩, ?_, ?_, ?_⟩
  · rw [poke_length _ _ _ hfit, List.length_replicate]
  · exact h4 ▸ slice_poke_self _ _ _ hfit
  · rw [drop_poke _ _ _ _ (by omega) hfit, List.drop_replicate]

/-- the MD5 is not a part of what it is computed from -/
theorem storeMd5_eq (image : List UInt8) {md5 : List UInt8} (h16 : md5.length = 16)
    (h : 0x14 ≤ image.length) :
    ∃ file, store image 4 md5 = some file ∧ file.length = image.length ∧
      slice file 0 4 = slice image 0 4 ∧ slice file 4 16 = md5 ∧
      ∀ k, 0x14 ≤ k → file.drop k = image.drop k := by
  have hfit : 4 + md5.length ≤ image.length := by omega
  refine ⟨_, store_eq_some.mpr ⟨hfit, rfl⟩, poke_length _ _ _ hfit, ?_, ?_, fun k hk => ?_⟩
  · exact slice_poke_before _ _ _ _ _ (by omega) (by omega)
  · exact h16 ▸ slice_poke_self _ _ _ hfit
  · exact drop_poke _ _ _ _ (by omega) hfit

theorem putVendor_eq (info : DeviceInfo) (image : List UInt8) (h : 0x1014 ≤ image.length) :
    ∃ image', putVendor info image = some image' ∧ image'.length = image.length ∧
      slice image' 0 4 = slice image 0 4 ∧ image'.drop 0x1014 = image.drop 0x1014 := by
  unfold putVendor
  cases hv : info.vendor with
  | none => exact ⟨image, rfl, rfl, rfl, rfl⟩
  | some v =>
    have hfit : v.bytes.length ≤ 4092 := info.vendor_fits v hv
    have h4 : (put32 true (UInt32.ofNat v.length)).length = 4 := put32_length _ _
    have hl1 : (poke image 0x14 (put32 true (UInt32.ofNat v.length))).length = image.length :=
      poke_length _ _ _ (by omega)
    refine ⟨poke (poke image 0x14 (put32 true (UInt32.ofNat v.length))) 0x18 v.bytes, ?_, ?_, ?_, ?_⟩
    · show (store image 0x14 (put32 true (UInt32.ofNat v.length))).bind _ = _
      rw [store_eq_some.mpr ⟨by omega, rfl⟩]
      exact store_eq_some.mpr ⟨by omega, rfl⟩
    · rw [poke_length _ _ _ (by omega), hl1]
    · rw [slice_poke_before _ _ _ _ _ (by omega) (by omega),
        slice_poke_before _ _ _ _ _ (by omega) (by omega)]
    · rw [drop_poke _ _ _ _ (by omega) (by omega), drop_poke _ _ _ _ (by omega) (by omega)]

/-- what the code asks of a list of partitions -/
structure Fits (info : DeviceInfo) (parts : List ImagePartition) : Prop where
  distinct : (parts.map ImagePartition.name).Nodup
  named : ∀ p ∈ parts, GoodName p.name
  flash : ∀ p ∈ parts, InFlash info.partitions p
  -- the zero byte at the end is a part of the table
  table : (text 0x800 parts ++ [0]).length ≤ 0x800
  size : total parts < 2147483648 - 0x1814

/-- a written image -/
structure Written (stack : Md5.Buffer) (parts : List ImagePartition) (file : List UInt8) : Prop where
  length : file.length = 0x1814 + total parts
  imagesize : slice file 0 4 = put32 true (UInt32.ofNat (0x1814 + total parts))
  md5 : Osafeloader.storedMd5 file = putMd5 stack (file.drop 0x14) (0x1800 + total parts)
  table : ∃ e, (text 0x800 parts).length + e.length = 0x800 ∧ Stops e ∧
    file.drop 0x1014 = text 0x800 parts ++ (e ++ dataOf parts)

theorem generate_written (stack : Md5.Buffer) {info : DeviceInfo} {parts : List ImagePartition}
    (h : Fits info parts) :
    ∃ file, generateFactoryImage stack info parts = some file ∧ Written stack parts file := by
  have htable := h.table
  rw [List.length_append, List.length_singleton] at htable
  generalize hlen : 0x1814 + total parts = len
  obtain ⟨image0, h0, hl0, hs0, hd0⟩ := putSize_eq (n := len) (by omega)
  obtain ⟨image1, h1, hl1, hs1, hd1⟩ := putVendor_eq info image0 (by omega)
  rw [hd0, show len - 0x1014 = 0x800 + total parts by omega,
    ← List.replicate_append_replicate] at hd1
  obtain ⟨e, he, hstop, h2⟩ := putPartitions_eq parts 0x800 (t := [])
    (x := List.replicate 0x800 0xff) (d := []) (r := List.replicate (total parts) 0xff)
    (by rw [List.length_replicate]; rfl) rfl List.length_replicate (.inr rfl)
    (by rw [List.length_nil]; omega) h.flash
  simp only [List.length_nil, List.nil_append] at h2
  rw [List.length_nil, Nat.zero_add] at he
  rw [← hd1] at h2
  have ht : (image1.take 0x1014).length = 0x1014 := by
    rw [List.length_take]
    omega
  generalize hi2 : image1.take 0x1014 ++ (text 0x800 parts ++ (e ++ dataOf parts)) = image2
  have hl2 : image2.length = len := by
    rw [← hi2, List.length_append, ht, List.length_append, List.length_append, dataOf_length]
    omega
  have hd2 : image2.drop 0x1014 = text 0x800 parts ++ (e ++ dataOf parts) := by
    rw [← hi2]
    exact List.drop_left' ht
  have hs2 : slice image2 0 4 = slice image1 0 4 := by
    rw [← hi2, slice_append_left _ _ _ _ (by omega)]
    conv_rhs => rw [← List.take_append_drop 0x1014 image1]
    rw [slice_append_left _ _ _ _ (by omega)]
  have h16 : (putMd5 stack (image2.drop 0x14) (len - 0x14)).length = 16 := Md5.digest_length _
  obtain ⟨file, h3, hl3, hs3, hm3, hd3⟩ := storeMd5_eq image2 h16 (by omega)
  refine ⟨file, ?_, ?_, ?_, ?_, e, he, hstop, ?_⟩
  · unfold generateFactoryImage
    simp only [show (parts.map fun p => p.data.length).sum = total parts from rfl, hlen,
      Option.bind_eq_bind, h0, Option.bind_some, h1, h2, hi2]
    exact h3
  · rw [hl3, hl2, hlen]
  · rw [hs3, hs2, hs1, hs0, hlen]
  · rw [hd3 _ (Nat.le_refl _), show 0x1800 + total parts = len - 0x14 by omega]
    exact hm3
  · rw [hd3 _ (by decide), hd2]

/-! ## both together -/

theorem salt_eq : Osafeloader.md5Salt = md5Salt := rfl

/-- the size in the header counts its own 20 bytes, but the file ends before -/
theorem computedMd5_eq {stack : Md5.Buffer} {parts : List ImagePartition} {file : List UInt8}
    (h : Written stack parts file) (hlt : total parts < 2147483648 - 0x1814) (stack' : Md5.Buffer) :
    Osafeloader.computedMd5 stack' file = Osafeloader.storedMd5 file := by
  have hn : (get32 true (slice file 0 4)).toNat = 0x1814 + total parts := by
    rw [h.imagesize, get32_put32]
    exact UInt32.toNat_ofNat_of_lt' (by show _ < 4294967296; omega)
  have hdl : (file.drop 0x14).length = 0x1800 + total parts := by
    rw [List.length_drop, h.length]
    omega
  obtain ⟨pieces, h1, h2⟩ := Fread.loop_eq (k := 1024) (f := Md5.update) (by decide)
    (Nat.lt_succ_self (0x1814 + total parts)) (file.drop 0x14)
    (Md5.update (Md5.init stack') Osafeloader.md5Salt)
  rw [List.take_of_length_le (by omega)] at h1
  have hc : Osafeloader.computedMd5 stack' file = Md5.md5 (md5Salt ++ file.drop 0x14) := by
    unfold Osafeloader.computedMd5 Osafeloader.headerLen
    dsimp only
    rw [hn, h2, ← h1, salt_eq]
    exact Md5.final_updates stack' (md5Salt :: pieces)
  rw [hc, h.md5]
  unfold putMd5
  rw [UInt32.toNat_ofNat_of_lt' (by show _ < 4294967296; omega),
    List.take_of_length_le (by omega)]
  have hw := Md5.final_updates stack [md5Salt, file.drop 0x14]
  rw [List.flatten_cons, List.flatten_singleton] at hw
  exact hw.symm

theorem length_le_text (base : Nat) (ps : List ImagePartition) :
    ps.length ≤ (text base ps).length := by
  induction ps generalizing base with
  | nil => exact Nat.le_refl _
  | cons p ps ih =>
    have h := ih (base + p.data.length)
    have hl : 1 ≤ (line p.name (UInt32.ofNat base) (UInt32.ofNat p.data.length)).length := by
      unfold line
      rw [List.length_append]
      exact Nat.le_add_right_of_le (by decide)
    rw [text, List.length_append, List.length_cons]
    omega

/-- **Written images are read back**: the MD5 is the one that is stored, the partitions are listed
in order, and every partition is extracted; a name that is not in the list is not found. -/
theorem factoryImage_read (stack stack' : Md5.Buffer) {info : DeviceInfo}
    {parts : List ImagePartition} (h : Fits info parts) :
    ∃ file, generateFactoryImage stack info parts = some file ∧
      file.length = 0x1814 + (parts.map fun p => p.data.length).sum ∧
      Osafeloader.computedMd5 stack' file = Osafeloader.storedMd5 file ∧
      Osafeloader.info stack' file = some (.ok ⟨UInt32.ofNat file.length,
        Osafeloader.storedMd5 file, listing 0x800 parts⟩) ∧
      (∀ p ∈ parts, Osafeloader.extract file p.name = some (0, p.data)) ∧
      ∀ name, name ∉ parts.map ImagePartition.name →
        Osafeloader.extract file name = some (-2, []) := by
  obtain ⟨file, hgen, hw⟩ := generate_written stack h
  obtain ⟨e, he, hstop, htab⟩ := hw.table
  have hsize := h.size
  have hmd5 := computedMd5_eq hw hsize stack'
  have hfile := hw.length
  have hfuel : parts.length < file.length + 1 := by
    have := length_le_text 0x800 parts
    omega
  have hhdr : ¬ (file.take Osafeloader.headerLen).length ≠ Osafeloader.headerLen := by
    rw [List.length_take]
    unfold Osafeloader.headerLen
    omega
  refine ⟨file, hgen, hfile, hmd5, ?_, ?_, ?_⟩
  · have hlist := listParts_text parts 0x800 (r := dataOf parts) hstop h.named (by omega) hfuel
    unfold Osafeloader.info
    rw [if_neg hhdr, if_neg (not_not.mpr hmd5), htab, hlist, hmd5, hw.imagesize, get32_put32, hfile]
    rfl
  · intro p hp
    obtain ⟨ls, rs, rfl⟩ := List.append_of_mem hp
    have hnd := h.distinct
    rw [List.map_append, List.map_cons, List.nodup_append] at hnd
    have hnew : p.name ∉ ls.map ImagePartition.name :=
      fun hm => hnd.2.2 _ hm _ List.mem_cons_self rfl
    rw [total_append, total_cons] at hsize
    obtain ⟨rest, hfind⟩ := findPart_some p ls rs 0x800 (file.length + 1)
      (r := dataOf (ls ++ p :: rs)) hstop h.named (by rw [total_append, total_cons]; omega)
      (by rw [List.length_append] at hfuel; omega) hnew
    have hcopy := copyPart_eq file rest (b := 0x800 + total ls) (r := dataOf rs)
      (e := ⟨p.name, (0x800 + total ls : Nat), p.data.length⟩) rfl rfl (by omega) (by
        rw [← List.drop_drop, htab, ← List.append_assoc, ← List.drop_drop,
          List.drop_left' (by rw [List.length_append]; exact he)]
        unfold dataOf
        rw [List.flatMap_append, List.flatMap_cons]
        exact List.drop_left' (dataOf_length ls))
    unfold Osafeloader.extract
    rw [if_neg hhdr, show Osafeloader.headerLen + 0x1000 = 0x1014 from rfl, htab, hfind]
    dsimp only
    rw [hcopy]
  · intro name hn
    have hfind := findPart_none name parts 0x800 (r := dataOf parts) hstop h.named (by omega)
      hfuel hn
    unfold Osafeloader.extract
    rw [if_neg hhdr, show Osafeloader.headerLen + 0x1000 = 0x1014 from rfl, htab, hfind]

theorem os_nul_free : 0 ∉ CStr.ascii ['o', 's'] := by decide

theorem fs_nul_free : 0 ∉ CStr.ascii ['f', 's'] := by decide

theorem vendor_nul_free : 0 ∉ CStr.ascii ['C', 'P', 'E'] := by decide

def os : CStr := ⟨CStr.ascii ['o', 's'], os_nul_free⟩

def fs : CStr := ⟨CStr.ascii ['f', 's'], fs_nul_free⟩

theorem cpe_fits : ∀ v ∈ some (⟨CStr.ascii ['C', 'P', 'E'], vendor_nul_free⟩ : CStr),
    v.length ≤ 4092 := by
  intro v hv
  rw [← Option.some.inj hv]
  decide

def cpe : DeviceInfo :=
  ⟨some ⟨CStr.ascii ['C', 'P', 'E'], vendor_nul_free⟩, [⟨fs, 0x200, 0x100⟩, ⟨os, 0, 0x200⟩], cpe_fits⟩

theorem nothing_nul_free : 0 ∉ CStr.ascii ['x'] := by decide

/-- no partition has this name -/
def nothing : CStr := ⟨CStr.ascii ['x'], nothing_nul_free⟩

def parts2 : List ImagePartition := [⟨os, [1, 2]⟩, ⟨fs, [3, 4, 5]⟩]

theorem fits_parts2 : Fits cpe parts2 := by
  refine ⟨by decide, ?_, ?_, by decide +kernel, by decide⟩
  · intro p hp
    obtain rfl | hp := List.mem_cons.mp hp
    · exact goodName_of_any (by decide) (by decide) rfl
    · obtain rfl := List.mem_singleton.mp hp
      exact goodName_of_any (by decide) (by decide) rfl
  · intro p hp
    obtain rfl | hp := List.mem_cons.mp hp
    · exact ⟨⟨os, 0, 0x200⟩, rfl, by decide⟩
    · obtain rfl := List.mem_singleton.mp hp
      exact ⟨⟨fs, 0x200, 0x100⟩, rfl, by decide⟩

theorem stack0_full : (List.replicate 64 (0 : UInt8)).length = 64 := List.length_replicate

theorem factoryImage_read_parts2 : ∃ file,
    generateFactoryImage ⟨List.replicate 64 0, stack0_full⟩ cpe parts2 = some file ∧
      file.length = 0x1819 ∧ Osafeloader.extract file os = some (0, [1, 2]) ∧
      Osafeloader.extract file fs = some (0, [3, 4, 5]) ∧
      Osafeloader.extract file nothing = some (-2, []) := by
  obtain ⟨file, hgen, hlen, -, -, hex, hno⟩ := factoryImage_read ⟨List.replicate 64 0, stack0_full⟩
    ⟨List.replicate 64 0, stack0_full⟩ fits_parts2
  exact ⟨file, hgen, hlen, hex ⟨os, [1, 2]⟩ List.mem_cons_self,
    hex ⟨fs, [3, 4, 5]⟩ (List.mem_cons_of_mem _ List.mem_cons_self), hno _ (by decide)⟩

end Safeloader
