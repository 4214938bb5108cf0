import Firmware.Nvram.RoundTrip

/-!
# nvram: opening any partition

`nvram_open` on arbitrary bytes.

* `rehashLoop_inside`   the parser stays inside the mapping exactly when one of the NUL-terminated
                        strings behind the header has no `=`;
* `nvramOpen_inside_iff`   when `nvram_open` comes to an end without leaving the mapping;
* `findMagic_fuel`, `rehashLoop_fuel`   both loops come to an end: they take no more turns than the
                                        mapping has bytes.
-/

set_option linter.unusedVariables false

namespace Nvram
open Img Word CStr

variable {host : Host}

/-! ## NUL-terminated strings -/

/-- the NUL-terminated strings of a memory area; what follows the last NUL is none -/
def strings (b : List UInt8) : List (List UInt8) := (b.splitOn 0).dropLast

theorem strings_of_not_mem {b : List UInt8} (h : 0 ∉ b) : strings b = [] := by
  unfold strings List.splitOn
  rw [List.splitOnP_eq_singleton fun x hx => by
    simpa using fun e : x = 0 => h (e ▸ hx)]
  rfl

theorem strings_append {s : List UInt8} (h : 0 ∉ s) (z : List UInt8) :
    strings (s ++ 0 :: z) = s :: strings z := by
  unfold strings List.splitOn
  rw [List.splitOnP_append_cons_of_forall_mem (fun x hx => by
    simpa using fun e : x = 0 => h (e ▸ hx)) 0 (by simp)]
  exact List.dropLast_cons_of_ne_nil (List.splitOnP_ne_nil _ _)

/-- a record that ends the parse -/
def Stops (b : List UInt8) : Prop := ∃ s ∈ strings b, eqSign ∉ s

theorem not_stops_of_not_mem {b : List UInt8} (h : 0 ∉ b) : ¬ Stops b := by
  rintro ⟨s, hs, -⟩
  rw [strings_of_not_mem h] at hs
  exact absurd hs (by simp)

theorem stops_append {s : List UInt8} (h : 0 ∉ s) (z : List UInt8) :
    Stops (s ++ 0 :: z) ↔ eqSign ∉ s ∨ Stops z := by
  unfold Stops
  rw [strings_append h]
  simp

/-- the two strings of a record -/
theorem record_of_mem {s : List UInt8} (hs : 0 ∉ s) (he : eqSign ∈ s) :
    ∃ n v : CStr, eqSign ∉ n.bytes ∧ s ++ [0] = record n v := by
  have hcut := cut_eq he
  have hn : 0 ∉ s.takeWhile (· ≠ eqSign) := fun h => hs ((List.takeWhile_prefix _).subset h)
  have hv : 0 ∉ (s.dropWhile (· ≠ eqSign)).tail := fun h =>
    hs ((List.dropWhile_suffix _).subset (List.mem_of_mem_tail h))
  refine ⟨⟨_, hn⟩, ⟨_, hv⟩, fun h => ?_, ?_⟩
  · have := List.mem_takeWhile_imp h
    simp at this
  · conv_lhs => rw [hcut]
    simp [record]

/-- what the parser meets: no string at all, a string without `=`, or a record -/
theorem first_string (b : List UInt8) : 0 ∉ b ∨ (∃ s z, b = s ++ 0 :: z ∧ 0 ∉ s ∧ eqSign ∉ s) ∨
    ∃ n v z, b = record n v ++ z ∧ eqSign ∉ n.bytes := by
  by_cases h : 0 ∈ b
  · obtain ⟨s, z, rfl, hs⟩ := List.eq_append_cons_of_mem h
    by_cases he : eqSign ∈ s
    · obtain ⟨n, v, hn, hrec⟩ := record_of_mem hs he
      refine .inr (.inr ⟨n, v, z, ?_, hn⟩)
      rw [← hrec, List.append_assoc]
      rfl
    · exact .inr (.inl ⟨s, z, rfl, hs, he⟩)
  · exact .inl h

theorem stops_record (n v : CStr) (z : List UInt8) : Stops (record n v ++ z) ↔ Stops z := by
  have hs : 0 ∉ n.bytes ++ eqSign :: v.bytes := by
    rw [List.mem_append, List.mem_cons]
    rintro (h | h | h)
    · exact n.nul_free h
    · exact absurd h (by decide)
    · exact v.nul_free h
  have hrec : record n v ++ z = (n.bytes ++ eqSign :: v.bytes) ++ 0 :: z := by simp [record]
  rw [hrec, stops_append hs]
  exact ⟨fun h => h.resolve_left fun h' => h' (by simp), .inr⟩

/-! ## the parser -/

/-- without a NUL the parser leaves the mapping -/
theorem rehashLoop_unterminated (fuel : Nat) (a : List UInt8) {b : List UInt8} (h : Handle host)
    (hb : 0 ∉ b) : rehashLoop fuel (a ++ b) a.length h = none := by
  cases fuel with
  | zero => rfl
  | succ fuel =>
    refine Option.eq_none_iff_forall_ne_some.mpr fun x e => hb ?_
    unfold rehashLoop at e
    obtain ⟨c, hc, e⟩ := Option.bind_eq_some_iff.mp e
    rw [List.getElem?_append_right (Nat.le_refl _), Nat.sub_self] at hc
    by_cases h0 : c = 0
    · exact h0 ▸ List.mem_of_getElem? hc
    · rw [if_neg h0, List.drop_left] at e
      obtain ⟨o, ho, e⟩ := Option.bind_eq_some_iff.mp e
      cases o with
      | none => exact mem_of_strchr_none ho
      | some i =>
        obtain ⟨s, r, rfl, rfl, -, -⟩ := strchr_some ho
        obtain ⟨n, -, e⟩ := Option.bind_eq_some_iff.mp e
        obtain ⟨v, -, e⟩ := Option.bind_eq_some_iff.mp e
        obtain ⟨l, hl, -⟩ := Option.bind_eq_some_iff.mp e
        have hback : ((a ++ (s ++ eqSign :: r)).set (a.length + s.length) 0).set
            (a.length + s.length) eqSign = (a ++ s) ++ eqSign :: r := by
          rw [List.set_set, ← List.append_assoc, ← List.length_append,
            List.set_append_right _ _ (Nat.le_refl _), Nat.sub_self]
          rfl
        rw [hback, ← List.length_append, ← List.drop_drop, List.drop_left] at hl
        exact List.mem_append_right s (List.mem_cons_of_mem _ (mem_of_strlen hl))

/-- a string without `=` ends the parse -/
theorem rehashLoop_stop (fuel : Nat) (a z : List UInt8) {s : List UInt8} (h : Handle host)
    (hs : 0 ∉ s) (he : eqSign ∉ s) :
    rehashLoop (fuel + 1) (a ++ (s ++ 0 :: z)) a.length h = some (a ++ (s ++ 0 :: z), h) := by
  unfold rehashLoop
  rw [List.getElem?_append_right (Nat.le_refl _), Nat.sub_self, List.drop_left,
    strchr_absent hs he (by decide)]
  cases s with
  | nil => rfl
  | cons c s =>
    have hc : ¬ c = 0 := fun e => hs (e ▸ List.mem_cons_self)
    simp only [List.cons_append, List.getElem?_cons_zero, Option.bind_eq_bind, Option.bind_some,
      if_neg hc]

/-- **The parser on arbitrary bytes** comes to an end inside the mapping exactly when a string
without `=` ends the parse. -/
theorem rehashLoop_inside (b : List UInt8) : ∀ (fuel : Nat) (a : List UInt8) (h : Handle host),
    b.length < fuel → (rehashLoop fuel (a ++ b) a.length h ≠ none ↔ Stops b) := by
  induction hl : b.length using Nat.strong_induction_on generalizing b with
  | _ k ih =>
    intro fuel a h hf
    obtain ⟨fuel, rfl⟩ : ∃ j, fuel = j + 1 := ⟨fuel - 1, by omega⟩
    rcases first_string b with hb | ⟨s, z, rfl, hs, he⟩ | ⟨n, v, z, rfl, hn⟩
    · rw [rehashLoop_unterminated _ a h hb]
      exact ⟨fun hn => absurd rfl hn, fun hst => absurd hst (not_stops_of_not_mem hb)⟩
    · rw [rehashLoop_stop fuel a z h hs he, stops_append hs]
      exact ⟨fun _ => .inl he, fun _ => by simp⟩
    · rw [List.length_append, record_length] at hl
      rw [stops_record, rehashLoop_record _ _ _ _ _ _ hn, ← List.append_assoc, ← List.length_append]
      exact ih z.length (by omega) z rfl fuel _ _ (by omega)

/-- more fuel changes nothing -/
theorem rehashLoop_fuel (b : List UInt8) : ∀ (fuel fuel' : Nat) (a : List UInt8) (h : Handle host),
    b.length < fuel → b.length < fuel' →
      rehashLoop fuel (a ++ b) a.length h = rehashLoop fuel' (a ++ b) a.length h := by
  induction hl : b.length using Nat.strong_induction_on generalizing b with
  | _ k ih =>
    intro fuel fuel' a h hf hf'
    obtain ⟨fuel, rfl⟩ : ∃ j, fuel = j + 1 := ⟨fuel - 1, by omega⟩
    obtain ⟨fuel', rfl⟩ : ∃ j, fuel' = j + 1 := ⟨fuel' - 1, by omega⟩
    rcases first_string b with hb | ⟨s, z, rfl, hs, he⟩ | ⟨n, v, z, rfl, hn⟩
    · rw [rehashLoop_unterminated _ a h hb, rehashLoop_unterminated _ a h hb]
    · rw [rehashLoop_stop fuel a z h hs he, rehashLoop_stop fuel' a z h hs he]
    · rw [List.length_append, record_length] at hl
      rw [rehashLoop_record _ _ _ _ _ _ hn, rehashLoop_record _ _ _ _ _ _ hn, ← List.append_assoc,
        ← List.length_append]
      exact ih z.length (by omega) z rfl fuel fuel' _ _ (by omega) (by omega)

theorem load32_some (big : Bool) {m : List UInt8} {off : Nat} :
    (∃ w, load32 big m off = some w) ↔ off + 4 ≤ m.length := by
  unfold load32
  constructor
  · rintro ⟨w, hw⟩
    obtain ⟨x, hx, -⟩ := Option.map_eq_some_iff.mp hw
    exact (load_eq_some.mp hx).1
  · exact fun h => ⟨_, Option.map_eq_some_iff.mpr ⟨_, load_eq_some.mpr ⟨h, rfl⟩, rfl⟩⟩

/-- the header is there and the parse behind it stops -/
def Parses (area : List UInt8) : Prop := headerLen ≤ area.length ∧ Stops (area.drop headerLen)

theorem nvramRehash_inside (h : Handle host) : nvramRehash h ≠ none ↔ Parses h.area := by
  by_cases hS : headerLen ≤ h.area.length
  swap
  · -- the first byte of the data is outside
    have hn : nvramRehash h = none := by
      unfold nvramRehash rehashLoop
      rw [List.getElem?_eq_none (by omega)]
      rfl
    rw [hn]
    exact ⟨fun h => absurd rfl h, fun h => absurd h.1 hS⟩
  have ha : (h.area.take headerLen).length = headerLen := by rw [List.length_take]; omega
  have hin := rehashLoop_inside (h.area.drop headerLen) (h.area.length + 1) (h.area.take headerLen)
    (nvramFree h) (by rw [List.length_drop]; omega)
  rw [List.take_append_drop, ha] at hin
  unfold Parses
  rw [← hin]
  unfold nvramRehash
  cases hloop : rehashLoop (h.area.length + 1) h.area headerLen (nvramFree h) with
  | none => exact ⟨fun h => absurd rfl h, fun h => absurd rfl h.2⟩
  | some p =>
    obtain ⟨m, h1⟩ := p
    obtain ⟨rfl, -, -⟩ := rehashLoop_sound _ _ _ _ hloop (soundFor_empty _)
    have e20 : headerLen = 20 := rfl
    obtain ⟨w8, h8⟩ := (load32_some host.big).mpr (show 8 + 4 ≤ h.area.length by omega)
    obtain ⟨w12, h12⟩ := (load32_some host.big).mpr (show 12 + 4 ≤ h.area.length by omega)
    obtain ⟨w16, h16⟩ := (load32_some host.big).mpr (show 16 + 4 ≤ h.area.length by omega)
    simp only [Option.bind_eq_bind, Option.bind_some, h8, h12, h16]
    exact ⟨fun _ => ⟨hS, by simp⟩, fun _ => by simp⟩

/-! ## the search -/

/-- the search for the magic ends without finding it -/
theorem findMagic_absent {big : Bool} {m : List UInt8} {limit : Nat} (fuel j : Nat) :
    findMagic big m limit fuel j = some none ↔
      0 < fuel ∧ limit + 1 < j + fuel ∧ ∀ k, j ≤ k → k ≤ limit →
        ∃ w, load32 big m (4 * k) = some w ∧ w ≠ nvramMagic := by
  rw [findMagic_iff]
  constructor
  · rintro ⟨e, h1, h2, hp, ⟨h3, -⟩ | ⟨-, -, ho⟩⟩
    · refine ⟨by omega, ?_, fun k hk hkl => (hp k hk (by omega)).2⟩
      -- the word in front of the end is inside the limit
      rcases Nat.lt_or_ge j e with hje | hje
      · have := (hp (e - 1) (by omega) (by omega)).1
        omega
      · omega
    · exact absurd ho (by simp)
  · rintro ⟨h1, h2, hp⟩
    exact ⟨max j (limit + 1), by omega, by omega, fun k hk hke => ⟨by omega, hp k hk (by omega)⟩,
      Or.inl ⟨by omega, rfl⟩⟩

/-- more fuel changes nothing -/
theorem findMagic_fuel {big : Bool} {m : List UInt8} {limit fuel : Nat} (hm : 0 < m.length)
    (hf : m.length < fuel) :
    findMagic big m limit fuel 0 = findMagic big m limit (m.length + 1) 0 := by
  refine Option.ext fun o => ?_
  cases o with
  | none =>
    rw [findMagic_absent, findMagic_absent]
    refine ⟨fun ⟨_, _, h3⟩ => ⟨by omega, ?_, h3⟩, fun ⟨_, h2, h3⟩ => ⟨by omega, by omega, h3⟩⟩
    obtain ⟨w, hw, -⟩ := h3 limit (Nat.zero_le _) (Nat.le_refl _)
    have := (load32_some big).mp ⟨w, hw⟩
    omega
  | some i =>
    rw [findMagic_eq_some, findMagic_eq_some]
    refine ⟨fun ⟨h1, _, h3, h4, h5⟩ => ⟨h1, ?_, h3, h4, h5⟩,
      fun ⟨h1, h2, h3, h4, h5⟩ => ⟨h1, by omega, h3, h4, h5⟩⟩
    have := (load32_some big).mp ⟨_, h4⟩
    omega

/-- the word the search stops at -/
structure FirstMagic (host : Host) (bytes : List UInt8) (i : Nat) : Prop where
  low : i ≤ searchLimit host bytes.length
  here : load32 host.big bytes (4 * i) = some nvramMagic
  first : ∀ k < i, load32 host.big bytes (4 * k) ≠ some nvramMagic

theorem firstMagic_iff {bytes : List UInt8} {i : Nat} : FirstMagic host bytes i ↔
    findMagic host.big bytes (searchLimit host bytes.length) (bytes.length + 1) 0 = some (some i) := by
  rw [findMagic_eq_some]
  constructor
  · rintro ⟨h1, h2, h3⟩
    have hle := (load32_some host.big).mp ⟨_, h2⟩
    refine ⟨Nat.zero_le _, by omega, h1, h2, fun k _ hk => ?_⟩
    obtain ⟨w, hw⟩ := (load32_some host.big).mpr (show 4 * k + 4 ≤ bytes.length by omega)
    exact ⟨w, hw, fun e => h3 k hk (e ▸ hw)⟩
  · rintro ⟨-, -, h1, h2, h3⟩
    refine ⟨h1, h2, fun k hk e => ?_⟩
    obtain ⟨w, hw, hne⟩ := h3 k (Nat.zero_le _) hk
    rw [hw] at e
    exact hne (Option.some.inj e)

/-- below `NVRAM_MIN_SPACE` the difference wraps, in both widths -/
theorem searchLimit_small (host : Host) {n : Nat} (h : n < nvramMinSpace) : n ≤ searchLimit host n := by
  have hm := host.le_ulongMax
  have e8 : nvramMinSpace = 32768 := rfl
  unfold searchLimit
  generalize host.ulongMax = m at hm
  rw [Nat.mod_eq_of_lt (by omega)]
  omega

theorem searchLimit_of_le (host : Host) {n : Nat} (h : nvramMinSpace ≤ n) (hn : n < 4294967296) :
    searchLimit host n = (n - nvramMinSpace) / 4 := by
  have hm := host.le_ulongMax
  unfold searchLimit
  generalize host.ulongMax = m at hm
  rw [show n + (m + 1) - nvramMinSpace = n - nvramMinSpace + (m + 1) by omega, Nat.add_mod_right,
    Nat.mod_eq_of_lt (by omega)]

/-- the whole search range is inside, and without the magic -/
theorem absent_iff (host : Host) {bytes : List UInt8} (h0 : bytes.length ≠ 0)
    (hn : bytes.length < 4294967296) :
    findMagic host.big bytes (searchLimit host bytes.length) (bytes.length + 1) 0 = some none ↔
      nvramMinSpace ≤ bytes.length ∧ ∀ i, ¬ FirstMagic host bytes i := by
  have e8 : nvramMinSpace = 32768 := rfl
  constructor
  · intro h
    refine ⟨?_, fun i hi => ?_⟩
    · obtain ⟨-, -, h3⟩ := (findMagic_absent _ _).mp h
      obtain ⟨w, hw, -⟩ := h3 _ (Nat.zero_le _) (Nat.le_refl _)
      have hle := (load32_some host.big).mp ⟨w, hw⟩
      by_contra hlt
      have := searchLimit_small host (Nat.lt_of_not_le hlt)
      omega
    · rw [firstMagic_iff.mp hi] at h
      exact absurd h (by simp)
  · rintro ⟨hlen, hno⟩
    have hlimit := searchLimit_of_le host hlen hn
    refine (findMagic_absent _ _).mpr ⟨by omega, by omega, fun k _ hk => ?_⟩
    obtain ⟨w, hw⟩ := (load32_some host.big).mpr (show 4 * k + 4 ≤ bytes.length by omega)
    refine ⟨w, hw, fun e => ?_⟩
    -- the first word that is the magic
    have hex : ∃ j, load32 host.big bytes (4 * j) = some nvramMagic := ⟨k, e ▸ hw⟩
    classical
    have hle := Nat.find_min' hex (e ▸ hw)
    exact hno (Nat.find hex) ⟨by omega, Nat.find_spec hex, fun j hj => Nat.find_min hex hj⟩

/-! ## opening -/

/-- when an open comes to an end inside the mapping: it never starts; or the partition has
`NVRAM_MIN_SPACE` and no magic; or the magic is found, and the header is refused or the strings
behind it end the parse -/
def OpenInside (host : Host) (bytes : List UInt8) (rdonly : Bool) : Prop :=
  bytes.length = 0 ∨ (nvramMinSpace ≤ bytes.length ∧ ∀ i, ¬ FirstMagic host bytes i) ∨
  ∃ i, FirstMagic host bytes i ∧ (2147483648 ≤ 4 * i ∨
    if rdonly = true then Parses (bytes.drop (4 * i))
    else ∃ len, load32 host.big (bytes.drop (4 * i)) 4 = some len ∧
      (len.toNat < bytes.length - 4 * i → Parses (bytes.drop (4 * i))))

/-- an open whose search found the magic -/
theorem nvramOpen_found_inside (host : Host) (a : PageAddr) {bytes : List UInt8} {i : Nat}
    (hi : FirstMagic host bytes i) (hlow : 4 * i < 2147483648) (rdonly : Bool) :
    nvramOpenBytes host a bytes rdonly ≠ none ↔
      if rdonly = true then Parses (bytes.drop (4 * i))
      else ∃ len, load32 host.big (bytes.drop (4 * i)) 4 = some len ∧
        (len.toNat < bytes.length - 4 * i → Parses (bytes.drop (4 * i))) := by
  have hre : (nvramRehash (⟨a.addr, bytes, 4 * i, Chained.empty, []⟩ : Handle host)).bind
      (fun r => some (some r.2)) ≠ none ↔ Parses (bytes.drop (4 * i)) := by
    have hp := nvramRehash_inside (⟨a.addr, bytes, 4 * i, Chained.empty, []⟩ : Handle host)
    refine Iff.trans ?_ hp
    cases nvramRehash (⟨a.addr, bytes, 4 * i, Chained.empty, []⟩ : Handle host) <;> simp
  rw [nvramOpen_found (firstMagic_iff.mp hi) hlow]
  cases rdonly with
  | true => exact hre
  | false =>
    simp only [Bool.false_eq_true, if_false]
    cases load32 host.big (bytes.drop (4 * i)) 4 with
    | none => simp
    | some len =>
      simp only [Option.bind_some, Option.some.injEq, exists_eq_left']
      by_cases hfit : len.toNat < bytes.length - 4 * i
      · rw [if_pos hfit]
        exact hre.trans ⟨fun h _ => h, fun h => h hfit⟩
      · rw [if_neg hfit]
        exact ⟨fun _ h => absurd h hfit, fun _ => by simp⟩

/-- **Opening any partition.**  `nvram_open` comes to an end inside the mapping exactly under
`OpenInside`. -/
theorem nvramOpen_inside_iff (host : Host) (a : PageAddr) (bytes : List UInt8) (rdonly : Bool)
    (hn : bytes.length < 4294967296) :
    nvramOpenBytes host a bytes rdonly ≠ none ↔ OpenInside host bytes rdonly := by
  by_cases h0 : bytes.length = 0
  · rw [nvramOpenBytes, if_pos h0]
    exact ⟨fun _ => .inl h0, fun _ => by simp⟩
  by_cases hex : ∃ i, FirstMagic host bytes i
  · obtain ⟨i, hi⟩ := hex
    have huniq (j : Nat) (hj : FirstMagic host bytes j) : j = i := by
      have := (firstMagic_iff.mp hj).symm.trans (firstMagic_iff.mp hi)
      exact Option.some.inj (Option.some.inj this)
    by_cases hlow : 4 * i < 2147483648
    · rw [nvramOpen_found_inside host a hi hlow]
      constructor
      · exact fun h => .inr (.inr ⟨i, hi, .inr h⟩)
      · rintro (h | ⟨-, h⟩ | ⟨j, hj, h⟩)
        · exact absurd h h0
        · exact absurd hi (h i)
        · rw [huniq j hj] at h
          exact h.resolve_left (by omega)
    · -- the offset is negative as an `int`
      have hopen : nvramOpenBytes host a bytes rdonly = some none := by
        rw [nvramOpenBytes, if_neg h0, firstMagic_iff.mp hi]
        simp only [Option.bind_eq_bind, Option.bind_some, if_pos (Nat.le_of_not_lt hlow)]
      rw [hopen]
      exact ⟨fun _ => .inr (.inr ⟨i, hi, .inl (by omega)⟩), fun _ => by simp⟩
  · have hno (i : Nat) : ¬ FirstMagic host bytes i := fun h => hex ⟨i, h⟩
    have habs := absent_iff host h0 hn
    unfold nvramOpenBytes
    rw [if_neg h0]
    cases hf : findMagic host.big bytes (searchLimit host bytes.length) (bytes.length + 1) 0 with
    | none =>
      rw [hf] at habs
      refine ⟨fun h => absurd rfl h, ?_⟩
      rintro (h | h | ⟨i, hi, -⟩)
      · exact absurd h h0
      · exact absurd (habs.mpr h) (by simp)
      · exact absurd hi (hno i)
    | some o =>
      cases o with
      | none => exact ⟨fun _ => .inr (.inl (habs.mp hf)), fun _ => by simp⟩
      | some i => exact absurd (firstMagic_iff.mpr hf) (hno i)

/-! ## two partitions -/

/-- a header at the start of the partition -/
theorem firstMagic_header {len cvi cr cn : UInt32} {bytes r : List UInt8}
    (h : bytes = headerBytes host.big len cvi cr cn ++ r) : FirstMagic host bytes 0 :=
  ⟨Nat.zero_le _, (load32_header h).1, fun k hk => absurd hk (by omega)⟩

theorem nvramOpen_inside_blank : (blank.bytes.length < 4294967296) ∧
    nvramOpenBytes littleHost somePage blank.bytes false ≠ none := by
  have hd : blank.bytes = headerBytes false 24 0 0 0
      ++ (records [] ++ 0 :: List.replicate 32747 0) := rfl
  refine ⟨blank.small, (nvramOpen_inside_iff littleHost somePage blank.bytes false blank.small).mpr
    (.inr (.inr ⟨0, firstMagic_header hd, .inr ?_⟩))⟩
  rw [if_neg (by decide), show blank.bytes.drop (4 * 0) = blank.bytes from rfl]
  refine ⟨24, ?_, fun _ => ⟨?_, ?_⟩⟩
  · rw [hd]
    exact (load32_header rfl).2
  · rw [hd, List.length_append, headerBytes_length]
    omega
  · rw [hd, List.drop_left' (headerBytes_length _ _ _ _ _)]
    exact (stops_append (s := []) (by simp) _).mpr (.inl (by simp))

/-- a partition that was erased behind its header -/
def erasedBytes : List UInt8 := headerBytes false 20 0 0 0 ++ List.replicate 32748 0xFF

/-- the search for the first `=` leaves the mapping -/
theorem nvramOpen_erased : erasedBytes.length = nvramMinSpace ∧
    nvramOpenBytes littleHost somePage erasedBytes false = none := by
  have hlen : erasedBytes.length = 32768 := by
    unfold erasedBytes
    rw [List.length_append, headerBytes_length, List.length_replicate]
    rfl
  refine ⟨hlen, ?_⟩
  by_contra hne
  have hd : erasedBytes = headerBytes false 20 0 0 0 ++ List.replicate 32748 0xFF := rfl
  have hin := (nvramOpen_found_inside littleHost somePage (firstMagic_header hd) (by decide) false).mp
    hne
  rw [if_neg (by decide), show erasedBytes.drop (4 * 0) = erasedBytes from rfl] at hin
  obtain ⟨len, hl, hp⟩ := hin
  rw [show littleHost.big = false from rfl, (load32_header hd).2] at hl
  obtain rfl := Option.some.inj hl
  have hstop := (hp (by rw [hlen]; decide)).2
  rw [hd, List.drop_left' (headerBytes_length _ _ _ _ _)] at hstop
  refine not_stops_of_not_mem (fun hm => ?_) hstop
  exact absurd (List.eq_of_mem_replicate hm) (by decide)

end Nvram
