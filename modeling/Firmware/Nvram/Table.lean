import Firmware.Lib.Bytes
import Firmware.Lib.Chained
import Firmware.Lib.Cstr

/-!
# nvram: the handle and its hash table

`nvram_handle_t` with its 257 chains of tuples, and the operations that only touch the table:
`nvram_get`, `nvram_set`, `nvram_unset`, `nvram_getall`.

An allocation that fails is an input of the call (`Mem`).  A tuple's value is an `Option`: `none`
is the NULL that a failing `realloc` leaves behind.

* `get_nvramSet`, `get_nvramUnset`   the operations on the map `nvramGet`;
* `Sound`                            every value is there and every name is free of `=`, the
                                     invariant of runs whose allocations succeed (`soundFor_run`);
* `size_of_get`                      the serialised size of the table, from its map.
-/

set_option linter.unusedVariables false

namespace Nvram
open Img

/-! ## host and strings -/

/-- what the C compiler and the CPU decide -/
structure Host where
  big : Bool
  charSigned : Bool
  /-- a pointer, a `size_t` and an `unsigned long` have 64 bits, else 32 -/
  wide : Bool

/-- `sizeof(h->nvram_hash[0])` -/
def Host.ptrSize (host : Host) : Nat := if host.wide then 8 else 4

/-- `ULONG_MAX` and `SIZE_MAX` -/
def Host.ulongMax (host : Host) : Nat :=
  if host.wide then 18446744073709551615 else 4294967295

theorem Host.ptrSize_pos (host : Host) : 0 < host.ptrSize := by
  unfold Host.ptrSize
  split <;> decide

theorem Host.le_ulongMax (host : Host) : 4294967295 ≤ host.ulongMax := by
  unfold Host.ulongMax
  split <;> decide

/-- a little-endian machine with 32 bits -/
def littleHost : Host := ⟨false, true, false⟩

/-- a `char` converted to `uint32_t` -/
def Host.char (host : Host) (c : UInt8) : UInt32 :=
  if host.charSigned = true ∧ 128 ≤ c then c.toUInt32 - 256 else c.toUInt32

/-- string hash -/
def hash (host : Host) (s : CStr) : UInt32 :=
  s.bytes.foldl (fun h c => 31 * h + host.char c) 0

/-- index of the chain of a name: `hash(name) % NVRAM_ARRAYSIZE(h->nvram_hash)`.  The macro has no
parentheses, so the remainder is taken first: `hash(name) % sizeof(a) / sizeof(a[0])`. -/
def bucket (host : Host) (s : CStr) : Fin 257 :=
  ⟨(hash host s).toNat % (257 * host.ptrSize) / host.ptrSize, by
    have hp := host.ptrSize_pos
    exact Nat.div_lt_of_lt_mul (Nat.mul_comm 257 _ ▸ Nat.mod_lt _ (by omega))⟩

/-- name and value; the value `none` is a NULL pointer -/
abbrev Tuple := CStr × Option CStr

abbrev Table (host : Host) := Chained CStr (Option CStr) 257 (bucket host)

structure Handle (host : Host) where
  addr : Nat
  mmap : List UInt8
  offset : Nat
  table : Table host
  dead : List Tuple

variable {host : Host}

/-- `h->length - h->offset`; the mapping is `nvram_part_size` bytes long -/
def Handle.space (h : Handle host) : Nat := h.mmap.length - h.offset

/-- the bytes from the header (`nvram_header`) to the end of the mapping -/
def Handle.area (h : Handle host) : List UInt8 := h.mmap.drop h.offset

theorem Handle.area_length (h : Handle host) : h.area.length = h.space := List.length_drop

/-! ## operations -/

/-- free all tuples -/
def nvramFree (h : Handle host) : Handle host := { h with table := Chained.empty, dead := [] }

/-- which allocations of a call succeed -/
structure Mem where
  malloc : Bool
  realloc : Bool

def Mem.ok : Mem := ⟨true, true⟩

/-- results of `_nvram_realloc`: NULL with the tuple untouched, NULL with the value of the
existing tuple overwritten by NULL, or the tuple with its new value -/
inductive Realloc where
  | null
  | nulled
  | tuple (v : CStr)

/-- (re)allocate NVRAM tuples; `t` is the tuple of that name, if there is one -/
def nvramRealloc (mem : Mem) (h : Handle host) (t : Option (Option CStr)) (value : CStr) :
    Realloc :=
  if value.length + 1 > h.space then .null
  else
    match t with
    | none => if mem.malloc then (if mem.realloc then .tuple value else .null) else .null
    | some old =>
      if old = some value then .tuple value
      else if mem.realloc then .tuple value else .nulled

/-- get the value of an NVRAM variable -/
def nvramGet (h : Handle host) (name : CStr) : Option CStr := (h.table.get name).join

/-- set the value of an NVRAM variable: an existing tuple is changed in place (the pointer
`_nvram_realloc` returns is the tuple itself), a new one goes to the head of its chain -/
def nvramSet (mem : Mem) (h : Handle host) (name value : CStr) : Int × Handle host :=
  match nvramRealloc mem h (h.table.get name) value with
  | .null => (-12, h)
  | .nulled => (-12, { h with table := h.table.update name none })
  | .tuple v => (0, { h with table := h.table.set name (some v) })

/-- unset the value of an NVRAM variable: its tuple moves to the dead table -/
def nvramUnset (h : Handle host) (name : CStr) : Int × Handle host :=
  match h.table.get name with
  | some v => (0, { h with table := h.table.erase name, dead := (name, v) :: h.dead })
  | none => (0, h)

/-- get all NVRAM variables: every tuple of the table, the last one found first -/
def nvramGetall (h : Handle host) : List Tuple := h.table.entries.reverse

inductive Op where
  | set (name value : CStr)
  | unset (name : CStr)

def Op.name : Op → CStr
  | .set n _ => n
  | .unset n => n

/-- one library call, with successful allocations -/
def Op.run (op : Op) (h : Handle host) : Handle host :=
  match op with
  | .set n v => (nvramSet .ok h n v).2
  | .unset n => (nvramUnset h n).2

/-! ## what the operations do -/

/-- with successful allocations `nvram_set` fails only on values as long as the partition -/
theorem nvramSet_ok (h : Handle host) (name value : CStr) :
    nvramSet .ok h name value = if value.length + 1 > h.space then (-12, h)
      else (0, { h with table := h.table.set name (some value) }) := by
  unfold nvramSet nvramRealloc
  by_cases hs : value.length + 1 > h.space
  · rw [if_pos hs, if_pos hs]
  · rw [if_neg hs, if_neg hs]
    cases ht : h.table.get name with
    | none => rfl
    | some old =>
      by_cases ho : old = some value
      · simp only [if_pos ho]
      · simp only [if_neg ho, Mem.ok, if_true]

theorem get_nvramSet (h : Handle host) (name value k : CStr)
    (hv : value.length + 1 ≤ h.space) :
    nvramGet (nvramSet .ok h name value).2 k = if k = name then some value else nvramGet h k := by
  rw [nvramSet_ok, if_neg (by omega)]
  show ((h.table.set name (some value)).get k).join = _
  rw [Chained.get_set]
  by_cases e : k = name
  · rw [if_pos e, if_pos e]; rfl
  · rw [if_neg e, if_neg e]; rfl

theorem get_nvramUnset (h : Handle host) (name k : CStr) :
    nvramGet (nvramUnset h name).2 k = if k = name then none else nvramGet h k := by
  unfold nvramUnset
  cases ht : h.table.get name with
  | none =>
    by_cases e : k = name
    · rw [if_pos e, e]
      show (h.table.get name).join = none
      rw [ht]; rfl
    · rw [if_neg e]
  | some v =>
    show ((h.table.erase name).get k).join = _
    rw [Chained.get_erase]
    by_cases e : k = name
    · rw [if_pos e, if_pos e]; rfl
    · rw [if_neg e, if_neg e]; rfl

/-! ## the parts of the handle a run does not touch -/

/-- the fields outside the table -/
def Handle.frame (h : Handle host) : Nat × List UInt8 × Nat := (h.addr, h.mmap, h.offset)

theorem frame_nvramSet (mem : Mem) (h : Handle host) (name value : CStr) :
    (nvramSet mem h name value).2.frame = h.frame := by
  unfold nvramSet
  split <;> rfl

theorem frame_nvramUnset (h : Handle host) (name : CStr) :
    (nvramUnset h name).2.frame = h.frame := by
  unfold nvramUnset
  split <;> rfl

theorem frame_run (op : Op) (h : Handle host) : (op.run h).frame = h.frame := by
  cases op with
  | set n v => exact frame_nvramSet .ok h n v
  | unset n => exact frame_nvramUnset h n

theorem Handle.frame_eq {h h' : Handle host} (e : h'.frame = h.frame) :
    h'.addr = h.addr ∧ h'.mmap = h.mmap ∧ h'.offset = h.offset := by
  obtain ⟨e1, e2⟩ := Prod.mk.inj e
  obtain ⟨e2, e3⟩ := Prod.mk.inj e2
  exact ⟨e1, e2, e3⟩

theorem Handle.space_of_frame {h h' : Handle host} (e : h'.frame = h.frame) :
    h'.space = h.space := by
  obtain ⟨_, e2, e3⟩ := Handle.frame_eq e
  unfold Handle.space
  rw [e2, e3]

/-! ## the invariant of runs with successful allocations -/

/-- the byte `=` -/
def eqSign : UInt8 := 61

/-- every tuple has a value, and every name satisfies `p` -/
def SoundFor (p : CStr → Prop) (t : Table host) : Prop :=
  ∀ k v, t.get k = some v → v ≠ none ∧ p k

/-- every tuple has a value and a name without `=` -/
def Sound (t : Table host) : Prop := SoundFor (fun k => eqSign ∉ k.bytes) t

theorem soundFor_empty (p : CStr → Prop) : SoundFor p (Chained.empty : Table host) := by
  intro k v h
  exact absurd h (by simp)

theorem soundFor_set {p : CStr → Prop} {t : Table host} (ht : SoundFor p t) (name value : CStr)
    (hn : p name) : SoundFor p (t.set name (some value)) := by
  intro k v h
  rw [Chained.get_set] at h
  by_cases e : k = name
  · rw [if_pos e] at h
    refine ⟨?_, e ▸ hn⟩
    rw [← Option.some.inj h]
    simp
  · rw [if_neg e] at h
    exact ht k v h

theorem soundFor_erase {p : CStr → Prop} {t : Table host} (ht : SoundFor p t) (name : CStr) :
    SoundFor p (t.erase name) := by
  intro k v h
  rw [Chained.get_erase] at h
  by_cases e : k = name
  · rw [if_pos e] at h
    exact absurd h (by simp)
  · rw [if_neg e] at h
    exact ht k v h

theorem soundFor_nvramSet {p : CStr → Prop} {h : Handle host} (ht : SoundFor p h.table)
    (name value : CStr) (hn : p name) : SoundFor p (nvramSet .ok h name value).2.table := by
  rw [nvramSet_ok]
  split
  · exact ht
  · exact soundFor_set ht name value hn

theorem soundFor_run {p : CStr → Prop} {h : Handle host} (ht : SoundFor p h.table) (op : Op)
    (hn : p op.name) : SoundFor p (op.run h).table := by
  cases op with
  | set n v => exact soundFor_nvramSet ht n v hn
  | unset n =>
    show SoundFor p (nvramUnset h n).2.table
    unfold nvramUnset
    split
    · exact soundFor_erase ht n
    · exact ht

/-- with values everywhere `nvram_get` is the table itself -/
theorem nvramGet_eq_some {p : CStr → Prop} {h : Handle host} (ht : SoundFor p h.table)
    (k v : CStr) : nvramGet h k = some v ↔ h.table.get k = some (some v) := by
  unfold nvramGet
  cases hg : h.table.get k with
  | none => simp
  | some v' =>
    cases v' with
    | none => exact absurd rfl (ht k none hg).1
    | some v' => simp

/-! ## sizes -/

/-- `strlen(name) + strlen(value) + 2` -/
def tupleSize (t : Tuple) : Nat :=
  match t.2 with
  | some v => t.1.length + v.length + 2
  | none => 0

/-- the bytes all tuples of the table need -/
def Handle.size (h : Handle host) : Nat := (h.table.entries.map tupleSize).sum

/-- the size follows from the map -/
theorem size_of_get {p : CStr → Prop} {h : Handle host} (ht : SoundFor p h.table)
    (l : List (CStr × CStr)) (hl : (l.map Prod.fst).Nodup)
    (hg : ∀ k, nvramGet h k = Chain.find l k) :
    h.size = (l.map fun q => q.1.length + q.2.length + 2).sum := by
  have hp : h.table.entries.Perm (l.map fun q => (q.1, some q.2)) := by
    refine Chained.entries_perm _ _ (by rwa [List.map_map]) fun k => ?_
    rw [Chain.find_map some, ← hg]
    unfold nvramGet
    cases hk : h.table.get k with
    | none => rfl
    | some v =>
      cases v with
      | none => exact absurd rfl (ht k none hk).1
      | some v => rfl
  unfold Handle.size
  rw [(hp.map tupleSize).sum_eq, List.map_map]
  rfl

end Nvram
