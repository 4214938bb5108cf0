import Firmware.Lib.Bytes
import Firmware.Lib.Run

/-!
# rbcfg: the tags of a configuration block

A block of RouterBOOT settings: the magic number, a CRC, and tags of any length one behind another.

* `step`, `rbcfgFindTag`            the walk over the tags;
* `rbcfgGetU32`, `rbcfgSetU32`      four bytes behind the header of a tag, whatever its length is;
* `First m id off len pos`          the first complete tag `id` of the block, from `off` on;
* `set_iff`                         an update changes one setting unless the tag is too short.
-/

set_option linter.unusedVariables false

namespace Rbcfg
open Img Word Machine

/-- `RB_ID_TERMINATOR` -/
def idTerminator : UInt16 := 0

/-- `RB_ERR_NOTFOUND` -/
def errNotfound : Nat := 1

/-- `get_u16` -/
def loadU16 (m : List UInt8) (off : Nat) : Option UInt16 := (load m off 2).map (get16 true)

/-- how the walk ends: the length and the place of the data, or a read outside the block -/
inductive Found
  | found (len : UInt16) (pos : Nat)
  | notFound
  | outside
deriving DecidableEq

/-- `buf` and `buflen` -/
structure Walk where
  buf : Nat
  buflen : Nat

/-- a turn of the loop -/
def step (id : UInt16) (m : List UInt8) (s : Walk) : Walk ⊕ Found :=
  if s.buflen > 2 then
    match loadU16 m s.buf with
    | none => .inr .outside
    | some len =>
      if s.buflen - 2 < 2 then .inr .notFound
      else
        match loadU16 m (s.buf + 2) with
        | none => .inr .outside
        | some i =>
          if i = idTerminator then .inr .notFound
          else if s.buflen - 4 < len.toNat then .inr .notFound
          else if i = id then .inr (.found len (s.buf + 4))
          else .inl ⟨s.buf + 4 + len.toNat, s.buflen - 4 - len.toNat⟩
  else .inr .notFound

/-- the walk behind the magic number and the CRC; the block has at least these -/
def rbcfgFindTag (m : List UInt8) (id : UInt16) : Option Found := run (step id m) m.length ⟨8, m.length - 8⟩

/-- the error and the value; `none`: a read outside the block, or no end of the walk -/
def rbcfgGetU32 (m : List UInt8) (id : UInt16) : Option (Nat × Option UInt32) :=
  match rbcfgFindTag m id with
  | some (.found _ pos) => (load32 true m pos).map fun val => (0, some val)
  | some .notFound => some (errNotfound, none)
  | _ => none

/-- the error and the block -/
def rbcfgSetU32 (m : List UInt8) (id : UInt16) (val : UInt32) : Option (Nat × List UInt8) :=
  match rbcfgFindTag m id with
  | some (.found _ pos) => (store32 true m pos val).map fun m => (0, m)
  | some .notFound => some (errNotfound, m)
  | _ => none

/-! ## the tags -/

/-- the length and the id of the tag at `off` -/
def header (m : List UInt8) (off : Nat) : Option (UInt16 × UInt16) :=
  (load m off 4).map fun b => (get16 true (b.take 2), get16 true (b.drop 2))

/-- the tag at `off` is complete, and does not end the sequence -/
def Complete (m : List UInt8) (off : Nat) (len id : UInt16) : Prop :=
  header m off = some (len, id) ∧ id ≠ idTerminator ∧ off + 4 + len.toNat ≤ m.length

/-- the first tag `id` from `off` on has `len` bytes of data at `pos` -/
inductive First (m : List UInt8) (id : UInt16) : Nat → UInt16 → Nat → Prop
  | here {off : Nat} {len : UInt16} (h : Complete m off len id) : First m id off len (off + 4)
  | next {off pos : Nat} {l i len : UInt16} (h : Complete m off l i) (hi : i ≠ id)
      (hf : First m id (off + 4 + l.toNat) len pos) : First m id off len pos

theorem header_eq {m : List UInt8} {off : Nat} (h : off + 4 ≤ m.length) :
    ∃ len id, header m off = some (len, id) ∧ loadU16 m off = some len ∧ loadU16 m (off + 2) = some id := by
  have h4 : load m off 4 = some (slice m off 4) := load_eq_some.mpr ⟨h, rfl⟩
  have h1 : load m off 2 = some ((slice m off 4).take 2) := by
    refine load_eq_some.mpr ⟨by omega, ?_⟩
    unfold slice
    rw [List.take_take]
    rfl
  have h2 : load m (off + 2) 2 = some ((slice m off 4).drop 2) := by
    refine load_eq_some.mpr ⟨by omega, ?_⟩
    unfold slice
    rw [List.drop_take, List.drop_drop]
  refine ⟨get16 true ((slice m off 4).take 2), get16 true ((slice m off 4).drop 2), ?_, ?_, ?_⟩
  · unfold header
    rw [h4]
    rfl
  · unfold loadU16
    rw [h1]
    rfl
  · unfold loadU16
    rw [h2]
    rfl

/-- **A turn** inside the block finds the tag, steps over a complete one, or ends the walk. -/
theorem step_cases {m : List UInt8} {s : Walk} (id : UInt16) (hs : s.buf + s.buflen = m.length) :
    (∃ len, Complete m s.buf len id ∧ step id m s = .inr (.found len (s.buf + 4))) ∨
    (∃ len i, Complete m s.buf len i ∧ i ≠ id ∧
      step id m s = .inl ⟨s.buf + 4 + len.toNat, s.buflen - 4 - len.toNat⟩) ∨
    ((∀ len i, ¬Complete m s.buf len i) ∧ step id m s = .inr .notFound) := by
  by_cases h4 : 4 ≤ s.buflen
  · obtain ⟨len, i, hh, h1, h2⟩ := header_eq (show s.buf + 4 ≤ m.length by omega)
    have hstep : step id m s = if i = idTerminator then .inr .notFound
        else if s.buflen - 4 < len.toNat then .inr .notFound
        else if i = id then .inr (.found len (s.buf + 4))
        else .inl ⟨s.buf + 4 + len.toNat, s.buflen - 4 - len.toNat⟩ := by
      unfold step
      rw [if_pos (by omega), h1]
      dsimp only
      rw [if_neg (by omega), h2]
    rw [hstep]
    by_cases ht : i = idTerminator
    · refine Or.inr (Or.inr ⟨?_, if_pos ht⟩)
      rintro l j ⟨hj, hne, -⟩
      rw [hh] at hj
      exact hne ((Prod.mk.inj (Option.some.inj hj)).2 ▸ ht)
    · rw [if_neg ht]
      by_cases hl : s.buflen - 4 < len.toNat
      · refine Or.inr (Or.inr ⟨?_, if_pos hl⟩)
        rintro l j ⟨hj, -, hle⟩
        rw [hh] at hj
        obtain ⟨rfl, -⟩ := Prod.mk.inj (Option.some.inj hj)
        omega
      · rw [if_neg hl]
        have hc : Complete m s.buf len i := ⟨hh, ht, by omega⟩
        by_cases hi : i = id
        · subst hi
          exact Or.inl ⟨len, hc, if_pos rfl⟩
        · exact Or.inr (Or.inl ⟨len, i, hc, hi, if_neg hi⟩)
  · refine Or.inr (Or.inr ⟨?_, ?_⟩)
    · rintro l j ⟨hj, -, hle⟩
      omega
    · unfold step
      by_cases h2 : s.buflen > 2
      · -- three bytes are left: a length, and no id
        have h1 : loadU16 m s.buf = some (get16 true (slice m s.buf 2)) := by
          unfold loadU16
          rw [load_eq_some.mpr ⟨by omega, rfl⟩]
          rfl
        rw [if_pos h2, h1]
        dsimp only
        rw [if_pos (by omega)]
      · rw [if_neg h2]

theorem Complete.unique {m : List UInt8} {off : Nat} {l i l' i' : UInt16} (h : Complete m off l i)
    (h' : Complete m off l' i') : l = l' ∧ i = i' :=
  Prod.mk.inj (Option.some.inj (h.1.symm.trans h'.1))

/-- **The walk** ends inside the block: it finds the first tag, if there is one. -/
theorem walk_spec {m : List UInt8} (id : UInt16) (n : Nat) : ∀ s : Walk,
    s.buf + s.buflen = m.length → s.buflen < n → ∃ r, run (step id m) n s = some r ∧ r ≠ .outside ∧
      ∀ len pos, r = .found len pos ↔ First m id s.buf len pos := by
  induction n with
  | zero => exact fun s _ h => absurd h (Nat.not_lt_zero _)
  | succ n ih =>
    intro s hs hn
    unfold run
    rcases step_cases id hs with ⟨len, hc, hstep⟩ | ⟨len, i, hc, hi, hstep⟩ | ⟨hc, hstep⟩
    · rw [hstep]
      refine ⟨_, rfl, by simp, fun l p => ?_⟩
      constructor
      · intro h
        obtain ⟨rfl, rfl⟩ := Found.found.inj h
        exact First.here hc
      · intro h
        cases h with
        | here h =>
          obtain ⟨rfl, -⟩ := hc.unique h
          rfl
        | next h hne _ => exact absurd (hc.unique h).2.symm hne
    · rw [hstep]
      have hle := hc.2.2
      obtain ⟨r, hr, hout, hf⟩ := ih ⟨s.buf + 4 + len.toNat, s.buflen - 4 - len.toNat⟩
        (show s.buf + 4 + len.toNat + (s.buflen - 4 - len.toNat) = m.length by omega)
        (show s.buflen - 4 - len.toNat < n by omega)
      refine ⟨r, hr, hout, fun l p => (hf l p).trans ⟨First.next hc hi, fun h => ?_⟩⟩
      cases h with
      | here h => exact absurd (hc.unique h).2 hi
      | next h _ h' =>
        obtain ⟨rfl, -⟩ := hc.unique h
        exact h'
    · rw [hstep]
      refine ⟨_, rfl, by simp, fun l p => iff_of_false (by simp) fun h => ?_⟩
      cases h with
      | here h => exact hc _ _ h
      | next h _ _ => exact hc _ _ h

theorem findTag_spec {m : List UInt8} (h8 : 8 ≤ m.length) (id : UInt16) :
    ∃ r, rbcfgFindTag m id = some r ∧ r ≠ .outside ∧
      ∀ len pos, r = .found len pos ↔ First m id 8 len pos :=
  walk_spec id m.length ⟨8, m.length - 8⟩ (show 8 + (m.length - 8) = m.length by omega)
    (show m.length - 8 < m.length by omega)

theorem First.le {m : List UInt8} {id len : UInt16} {off pos : Nat} (h : First m id off len pos) :
    off + 4 ≤ pos ∧ pos + len.toNat ≤ m.length := by
  induction h with
  | here h => exact ⟨Nat.le_refl _, h.2.2⟩
  | next h _ _ ih => exact ⟨by omega, ih.2⟩

/-- the data of two tags are apart, with a header in between -/
theorem First.apart {m : List UInt8} {id id' len len' : UInt16} {off pos pos' : Nat}
    (h : First m id off len pos) (h' : First m id' off len' pos') (hne : id' ≠ id) :
    pos' + len'.toNat + 4 ≤ pos ∨ pos + len.toNat + 4 ≤ pos' := by
  induction h' with
  | here hc =>
    cases h with
    | here hc' => exact absurd (hc.unique hc').2 hne
    | next hc' _ hf =>
      obtain ⟨rfl, -⟩ := hc.unique hc'
      exact Or.inl hf.le.1
  | next hc _ hf ih =>
    cases h with
    | here hc' =>
      obtain ⟨rfl, -⟩ := hc.unique hc'
      exact Or.inr hf.le.1
    | next hc' _ hf' =>
      obtain ⟨rfl, -⟩ := hc.unique hc'
      exact ih hf'

/-! ## an update -/

/-- the blocks are the same but for `k` bytes at `pos` -/
def Agree (m m' : List UInt8) (pos k : Nat) : Prop :=
  m'.length = m.length ∧ ∀ i, i < pos ∨ pos + k ≤ i → m'[i]? = m[i]?

theorem Agree.slice {m m' : List UInt8} {pos k : Nat} (h : Agree m m' pos k) (off n : Nat)
    (hd : off + n ≤ pos ∨ pos + k ≤ off) : slice m' off n = slice m off n := by
  apply List.ext_getElem?
  intro i
  unfold Img.slice
  rw [List.getElem?_take, List.getElem?_take, List.getElem?_drop, List.getElem?_drop]
  by_cases hi : i < n
  · rw [if_pos hi, if_pos hi, h.2 _ (by omega)]
  · rw [if_neg hi, if_neg hi]

theorem Agree.loadU16 {m m' : List UInt8} {pos k : Nat} (h : Agree m m' pos k) (off : Nat)
    (hd : off + 2 ≤ pos ∨ pos + k ≤ off) : loadU16 m' off = loadU16 m off := by
  unfold Rbcfg.loadU16 load
  rw [h.1, h.slice _ _ hd]

theorem Agree.step {m m' : List UInt8} {pos k : Nat} {s : Walk} (h : Agree m m' pos k) (id : UInt16)
    (hd : s.buf + 4 ≤ pos ∨ pos + k ≤ s.buf) : step id m' s = step id m s := by
  unfold Rbcfg.step
  rw [h.loadU16 s.buf (by omega), h.loadU16 (s.buf + 2) (by omega)]

/-- **The walk** for any tag goes the same way if the data of the first tag `id` change. -/
theorem Agree.run {m m' : List UInt8} {id len : UInt16} {pos k : Nat} (h : Agree m m' pos k)
    (hk : k ≤ len.toNat) (id' : UInt16) (n : Nat) : ∀ s : Walk, s.buf + s.buflen = m.length →
    First m id s.buf len pos ∨ pos + len.toNat ≤ s.buf →
    run (Rbcfg.step id' m') n s = run (Rbcfg.step id' m) n s := by
  induction n with
  | zero => exact fun s _ _ => rfl
  | succ n ih =>
    intro s hs hw
    have hd : s.buf + 4 ≤ pos ∨ pos + k ≤ s.buf := by
      rcases hw with hf | hp
      · exact Or.inl hf.le.1
      · exact Or.inr (by omega)
    unfold Machine.run
    rw [h.step id' hd]
    rcases step_cases id' hs with ⟨l, hc, hstep⟩ | ⟨l, i, hc, hi, hstep⟩ | ⟨hc, hstep⟩
    · rw [hstep]
    · rw [hstep]
      have hle := hc.2.2
      refine ih _ (show s.buf + 4 + l.toNat + (s.buflen - 4 - l.toNat) = m.length by omega) ?_
      rcases hw with hf | hp
      · cases hf with
        | here hc' =>
          obtain ⟨rfl, -⟩ := hc.unique hc'
          exact Or.inr (Nat.le_refl _)
        | next hc' _ hf =>
          obtain ⟨rfl, -⟩ := hc.unique hc'
          exact Or.inl hf
      · exact Or.inr (show pos + len.toNat ≤ s.buf + 4 + l.toNat by omega)
    · rw [hstep]

/-- the update of a tag has changed nothing else -/
structure Updated (m m' : List UInt8) (id : UInt16) (val : UInt32) : Prop where
  read : rbcfgGetU32 m' id = some (0, some val)
  others : ∀ id', id' ≠ id → rbcfgFindTag m' id' = rbcfgFindTag m id' ∧
    ∀ len pos, rbcfgFindTag m id' = some (.found len pos) →
      slice m' pos len.toNat = slice m pos len.toNat
  frame : ∀ len pos, First m id 8 len pos → Agree m m' pos (min len.toNat 4)

/-- no access is outside the block, and an update that succeeds is one of the tag alone -/
def UpdatesOne (m : List UInt8) (id : UInt16) (val : UInt32) : Prop :=
  ∃ err m', rbcfgSetU32 m id val = some (err, m') ∧ (err = 0 → Updated m m' id val)

/-- the four bytes are inside the block, and behind a shorter tag they are there already -/
def Room (m : List UInt8) (id : UInt16) (val : UInt32) : Prop :=
  ∀ len pos, First m id 8 len pos → pos + 4 ≤ m.length ∧
    (4 ≤ len.toNat ∨
      slice m (pos + len.toNat) (4 - len.toNat) = (put32 true val).drop len.toNat)

theorem set_found {m : List UInt8} {id len : UInt16} {pos : Nat} {val : UInt32}
    (h : rbcfgFindTag m id = some (.found len pos)) :
    rbcfgSetU32 m id val = (store32 true m pos val).map fun m => (0, m) := by
  unfold rbcfgSetU32
  rw [h]

/-- four bytes of which those behind the data are there already -/
theorem poke_short {m d : List UInt8} {pos k : Nat} (hm : pos + d.length ≤ m.length) (hk : k ≤ d.length)
    (h : slice m (pos + k) (d.length - k) = d.drop k) : poke m pos d = poke m pos (d.take k) := by
  have hl : (d.take k).length = k := by
    rw [List.length_take]
    omega
  have ha := poke_append m (d.take k) (d.drop k) pos (by omega)
  rw [List.take_append_drop, hl] at ha
  have hs : d.drop k = slice (poke m pos (d.take k)) (pos + k) (d.length - k) := by
    rw [slice_poke_after m pos (pos + k) _ (d.take k) (by omega) (by omega), h]
  rw [← ha, hs]
  exact poke_slice_self _ (by rw [poke_length m pos _ (by omega)]; omega)

theorem agree_poke (m d : List UInt8) (pos : Nat) (hm : pos + d.length ≤ m.length) :
    Agree m (poke m pos d) pos d.length :=
  ⟨poke_length m pos d hm, fun i hi => poke_getElem? m d pos i hm hi⟩

theorem Agree.findTag {m m' : List UInt8} {id len : UInt16} {pos k : Nat} (h : Agree m m' pos k)
    (hk : k ≤ len.toNat) (hf : First m id 8 len pos) (id' : UInt16) :
    rbcfgFindTag m' id' = rbcfgFindTag m id' := by
  have hle := hf.le
  unfold rbcfgFindTag
  rw [h.1]
  exact h.run hk id' _ _ (show 8 + (m.length - 8) = m.length by omega) (Or.inl hf)

/-- the update behind the room for it -/
theorem updated_of_room {m : List UInt8} {id len : UInt16} {pos : Nat} {val : UInt32} (h8 : 8 ≤ m.length)
    (hf : First m id 8 len pos) (hroom : Room m id val) :
    Updated m (poke m pos (put32 true val)) id val := by
  have hl : (put32 true val).length = 4 := put32_length true val
  obtain ⟨hm, htail⟩ := hroom len pos hf
  have hshort : poke m pos (put32 true val) = poke m pos ((put32 true val).take (min len.toNat 4)) := by
    rcases htail with h4 | hs
    · rw [Nat.min_eq_right h4, List.take_of_length_le (by omega)]
    · by_cases h4 : 4 ≤ len.toNat
      · rw [Nat.min_eq_right h4, List.take_of_length_le (by omega)]
      · rw [Nat.min_eq_left (by omega)]
        exact poke_short (by omega) (by omega) (by rw [hl]; exact hs)
  have ha : Agree m (poke m pos (put32 true val)) pos (min len.toNat 4) := by
    have h := agree_poke m ((put32 true val).take (min len.toNat 4)) pos
      (by rw [List.length_take]; omega)
    rwa [← hshort, List.length_take, hl, Nat.min_assoc, Nat.min_self] at h
  obtain ⟨r, hr, -, hfound⟩ := findTag_spec h8 id
  have hr' : rbcfgFindTag m id = some (.found len pos) := by
    rw [hr, (hfound len pos).mpr hf]
  refine ⟨?_, fun id' hne => ⟨ha.findTag (Nat.min_le_left _ _) hf id', fun l p hl' => ?_⟩, fun l p hp => ?_⟩
  · unfold rbcfgGetU32
    rw [ha.findTag (Nat.min_le_left _ _) hf id, hr']
    dsimp only
    rw [load32_poke (by omega)]
    rfl
  · obtain ⟨r', hr'', -, hf''⟩ := findTag_spec h8 id'
    rw [hr''] at hl'
    have hp := (hf'' l p).mp (Option.some.inj hl')
    rcases hf.apart hp hne with h | h
    · exact ha.slice _ _ (Or.inl (by omega))
    · exact ha.slice _ _ (Or.inr (by omega))
  · have heq := (hfound l p).mpr hp
    rw [(hfound len pos).mpr hf] at heq
    obtain ⟨rfl, rfl⟩ := Found.found.inj heq
    exact ha

/-- **An update of one setting**: it changes that setting and nothing else exactly if there is room
for four bytes. -/
theorem set_iff (m : List UInt8) (id : UInt16) (val : UInt32) (h8 : 8 ≤ m.length) :
    (∃ r, rbcfgFindTag m id = some r ∧ r ≠ .outside) ∧ (UpdatesOne m id val ↔ Room m id val) := by
  obtain ⟨r, hr, hout, hfound⟩ := findTag_spec h8 id
  refine ⟨⟨r, hr, hout⟩, ?_⟩
  constructor
  · rintro ⟨err, m', hset, hup⟩ len pos hf
    rw [set_found (hr.trans (congrArg some ((hfound len pos).mpr hf)))] at hset
    obtain ⟨m₁, hst, he⟩ := Option.map_eq_some_iff.mp hset
    obtain ⟨rfl, rfl⟩ := Prod.mk.inj he
    obtain ⟨hm, rfl⟩ := store_eq_some.mp hst
    have hl : (put32 true val).length = 4 := put32_length true val
    refine ⟨by omega, ?_⟩
    by_cases h4 : 4 ≤ len.toNat
    · exact Or.inl h4
    · have ha := (hup rfl).frame len pos hf
      rw [Nat.min_eq_left (by omega)] at ha
      have hs := slice_poke_self m pos (put32 true val) hm
      rw [hl] at hs
      have hd := ha.slice (pos + len.toNat) (4 - len.toNat) (Or.inr (Nat.le_refl _))
      rw [← slice_slice (poke m pos (put32 true val)) (b := pos) (n := 4) (by omega), hs] at hd
      refine Or.inr (hd.symm.trans ?_)
      unfold slice
      exact List.take_of_length_le (by rw [List.length_drop, hl])
  · intro hroom
    cases r with
    | outside => exact absurd rfl hout
    | notFound =>
      refine ⟨errNotfound, m, ?_, fun h => absurd h (by decide)⟩
      unfold rbcfgSetU32
      rw [hr]
    | found len pos =>
      have hf := (hfound len pos).mp rfl
      refine ⟨0, poke m pos (put32 true val), ?_, fun _ => updated_of_room h8 hf hroom⟩
      have hm := (hroom len pos hf).1
      rw [set_found hr]
      unfold store32
      rw [store_eq_some.mpr ⟨by rw [put32_length]; exact hm, rfl⟩]
      rfl

/-- the tags 1 and 2, and the end of the sequence -/
def block : List UInt8 := zeros 8 ++ [0, 4, 0, 1, 0, 0, 0, 5] ++ [0, 4, 0, 2, 0, 0, 0, 7] ++ zeros 4

theorem set_iff_block : (∃ r, rbcfgFindTag block 1 = some r ∧ r ≠ .outside) ∧
    (UpdatesOne block 1 6 ↔ Room block 1 6) := set_iff block 1 6 (by decide)

/-- a tag 1 of two bytes in front of a tag 2 of four -/
def shortBlock : List UInt8 := zeros 8 ++ [0, 2, 0, 1, 0, 0] ++ [0, 4, 0, 2, 0, 0, 0, 7] ++ zeros 4

/-- its update with 1 makes the length of the tag 2 a one -/
def shortUpdated : List UInt8 := zeros 8 ++ [0, 2, 0, 1, 0, 0] ++ [0, 1, 0, 2, 0, 0, 0, 7] ++ zeros 4

theorem set_short : rbcfgSetU32 shortBlock 1 1 = some (0, shortUpdated) ∧
    rbcfgFindTag shortBlock 2 = some (.found 4 18) ∧ rbcfgFindTag shortUpdated 2 = some (.found 1 18) ∧
    ¬UpdatesOne shortBlock 1 1 := by
  have hset : rbcfgSetU32 shortBlock 1 1 = some (0, shortUpdated) := rfl
  have h2 : rbcfgFindTag shortBlock 2 = some (.found 4 18) := rfl
  have h2' : rbcfgFindTag shortUpdated 2 = some (.found 1 18) := rfl
  refine ⟨hset, h2, h2', ?_⟩
  rintro ⟨err, m', hm, hup⟩
  rw [hset] at hm
  obtain ⟨rfl, rfl⟩ := Prod.mk.inj (Option.some.inj hm)
  have h := ((hup rfl).others 2 (by decide)).1
  rw [h2, h2'] at h
  exact absurd h (by decide)

end Rbcfg
