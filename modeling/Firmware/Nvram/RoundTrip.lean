import Firmware.Nvram.Reach

/-!
# nvram: what a commit guarantees

Three properties of `nvram_commit`, each with the exact condition under which it holds for a
reachable handle; `size` is what all tuples need and `space` what the partition has behind the
start of the header.

* `CommitKeeps`    the variables survive, in the handle and in the image: needs `size + 26 ≤ space`;
* `LossReported`   a lost tuple is reported: only when there is none, `size + 22 ≤ space`;
* `Reopens`        the image can be opened for writing: the tuples written leave 26 bytes.

The length word counts the header, the tuples and two NULs, rounded up to a word, and
`nvram_open` wants it strictly below the space; that is where 26 comes from.
-/

set_option linter.unusedVariables false

namespace Nvram
open Img Word CStr

variable {host : Host}

/-! ## all tuples fit -/

theorem fitting_all {h : Handle host} (hs : h.size + 22 ≤ h.space) :
    fitting h = h.table.entries := by
  refine fit_all _ _ _ ?_
  have e20 : headerLen = 20 := rfl
  have e : sizes h.table.chains.flatten = h.size := rfl
  omega

theorem sizes_fitting_all {h : Handle host} (hs : h.size + 22 ≤ h.space) :
    sizes (fitting h) = h.size := by
  rw [fitting_all hs]
  rfl

theorem find_pairs_entries {p : CStr → Prop} {h : Handle host} (ht : SoundFor p h.table)
    (k : CStr) : Chain.find (pairs h.table.entries) k = nvramGet h k := by
  have hk : ((pairs h.table.entries).map Prod.fst).Nodup := by
    rw [map_fst_pairs _ ht.values]
    exact h.table.keys_nodup
  refine Option.ext fun v => ?_
  rw [Chain.find_eq_some hk, mem_pairs, nvramGet_eq_some ht, Chained.get_eq_some]

/-- the map after a commit for which everything fits -/
theorem get_committed {h h' : Handle host} {z : List UInt8} {cvi cr cn : UInt32}
    (hc : Committed h h' z cvi cr cn) (ht : Sound h.table) (hs : h.size + 22 ≤ h.space)
    (k : CStr) : nvramGet h' k = (nvramGet h k).or (sdramDefault cvi cr cn k) := by
  rw [hc.get ht k, fitting_all hs]
  unfold parsedGet
  rw [find_pairs_entries ht]

/-! ## a partition of the smallest size -/

/-- some page address -/
def somePage : PageAddr := ⟨0x40000000, by decide⟩

/-- a header, an empty record and `n` zeros -/
def blankBytes (n : Nat) : List UInt8 :=
  headerBytes false 24 0 0 0 ++ (records [] ++ 0 :: List.replicate n 0)

theorem blankBytes_length (n : Nat) : (blankBytes n).length = n + 21 := by
  unfold blankBytes
  rw [List.length_append, headerBytes_length, List.length_append, List.length_cons,
    List.length_replicate]
  show 20 + (0 + (n + 1)) = n + 21
  omega

/-- an empty NVRAM of `NVRAM_MIN_SPACE` bytes -/
def blank : Partition where
  bytes := blankBytes 32747
  words := by rw [blankBytes_length]; decide
  small := by rw [blankBytes_length]; decide

/-- the variables of a blank partition -/
def blankVars : List (CStr × CStr) :=
  [(nameInit, hex0x 4 0), (nameConfig, hex0x 4 0), (nameRefresh, hex0x 4 0), (nameNcdl, hex0x 8 0)]

theorem sdramDefault_zero (k : CStr) : sdramDefault 0 0 0 k = Chain.find blankVars k := by
  unfold sdramDefault blankVars
  simp only [Chain.find, eq_comm (a := k)]
  split_ifs <;> rfl

theorem blankBytes_open (p : Partition) (n : Nat) (hn : 4 ≤ n) (hp : p.bytes = blankBytes n) :
    ∃ h : Handle littleHost, nvramOpen littleHost somePage p false = some (some h) ∧
      h.space = n + 21 ∧ ∀ k, nvramGet h k = Chain.find blankVars k := by
  have hl : p.bytes.length = n + 21 := by rw [hp, blankBytes_length]
  have hm : p.bytes = headerBytes littleHost.big 24 0 0 0
      ++ (records [] ++ 0 :: List.replicate n 0) := hp
  have hf : findMagic littleHost.big p.bytes (searchLimit littleHost p.bytes.length)
      (p.bytes.length + 1) 0 = some (some 0) := by
    refine (findMagic_eq_some _ _).mpr ⟨Nat.le_refl _, by omega, Nat.zero_le _,
      (load32_header hm).1, fun k h1 h2 => by omega⟩
  have ho := nvramOpen_records (a := somePage) hf (by decide)
    (List.drop_zero.trans hm) false
  rw [if_pos (Or.inr (by rw [hl]; show 24 < n + 21 - 0; omega))] at ho
  obtain ⟨h, he, hfr, hg⟩ := ho
  refine ⟨h, he, ?_, fun k => ?_⟩
  · obtain ⟨-, e2⟩ := Prod.mk.inj hfr
    obtain ⟨e2, e3⟩ := Prod.mk.inj e2
    unfold Handle.space
    rw [e2, e3, hl]
    rfl
  · rw [hg (by simp) (by simp) k, ← sdramDefault_zero]
    rfl

def nameA : CStr := lit ['a'] (by decide)

/-- a value of `n` letters -/
def letters (n : Nat) : CStr := ⟨List.replicate n 120, by
  intro h
  exact absurd (List.eq_of_mem_replicate h) (by decide)⟩

/-- the variable `a` set to `n` letters in a blank partition: the table needs `n + 84` bytes -/
theorem filled (n : Nat) (hn : n + 1 ≤ 32768) :
    ∃ h : Handle littleHost, Reach (fun k => eqSign ∉ k.bytes) h ∧ h.space = 32768 ∧
      h.size = n + 84 := by
  obtain ⟨h, he, hs, hg⟩ := blankBytes_open blank 32747 (by decide) rfl
  have hlen : (letters n).length = n := List.length_replicate
  have hR : Reach (fun k => eqSign ∉ k.bytes) (Op.run (.set nameA (letters n)) h) :=
    .called _ (.opened he) (show eqSign ∉ nameA.bytes by decide)
  have hsp : (Op.run (.set nameA (letters n)) h).space = 32768 := by
    rw [Handle.space_of_frame (frame_run _ _), hs]
  refine ⟨_, hR, hsp, ?_⟩
  rw [size_of_get (hR.invariant fun _ hk => hk).2 ((nameA, letters n) :: blankVars)]
  · show (1 + (letters n).length + 2) + 81 = n + 84
    omega
  · show (nameA :: blankVars.map Prod.fst).Nodup
    decide
  · intro k
    show nvramGet (nvramSet .ok h nameA (letters n)).2 k = _
    rw [get_nvramSet h nameA (letters n) k (by omega), hg]
    simp only [Chain.find, eq_comm (a := k)]

/-! ## the variables survive -/

/-- the commit returns 0, every variable keeps its value, only SDRAM variables can appear, and
any later open of the image sees the same map -/
def CommitKeeps (h : Handle host) : Prop :=
  ∃ h', nvramCommit h = some (0, h') ∧
    (∀ k v, nvramGet h k = some v → nvramGet h' k = some v) ∧
    (∀ k, nvramGet h k = none → k ∉ sdramNames → nvramGet h' k = none) ∧
    ∀ (a : PageAddr) (p : Partition) (rdonly : Bool), p.bytes = h'.mmap →
      ∃ h'', nvramOpen host a p rdonly = some (some h'') ∧ ∀ k, nvramGet h'' k = nvramGet h' k

theorem CommitKeeps.of_room {h : Handle host} (hr : Ready h) (ht : Sound h.table)
    (hs : h.size + 26 ≤ h.space) : CommitKeeps h := by
  have e20 : headerLen = 20 := rfl
  have hs' : h.size + 22 ≤ h.space := by omega
  have hT : sizes (fitting h) + 26 ≤ h.space := by rw [sizes_fitting_all hs']; exact hs
  obtain ⟨hlen, o, h', z, cvi, cr, cn, -, -, he, hc⟩ :=
    nvramCommit_some hr ht (by omega) (padEnd_le hr hT)
  refine ⟨h', he, ?_, ?_, ?_⟩
  · intro k v hk
    rw [get_committed hc ht hs', hk]
    rfl
  · intro k hk hn
    rw [get_committed hc ht hs', hk, sdramDefault_of_not_mem _ _ _ _ hn]
    rfl
  · intro a p rdonly hp
    have ho := nvramOpen_committed hr hlen hc a p rdonly hp
    rw [if_pos (Or.inr ((newLen_lt hr).mpr hT))] at ho
    obtain ⟨h'', e, hg⟩ := ho
    exact ⟨h'', e, hg ht⟩

/-- the mapping of an open handle, as a partition -/
def Ready.partition {h : Handle host} (hr : Ready h) : Partition := ⟨h.mmap, hr.words, hr.small⟩

/-- an image whose length word reaches the end of the partition is refused for writing -/
theorem room_of_reopen {p : CStr → Prop} {h h' : Handle host} (hr : Ready h)
    (ht : SoundFor p h.table) (he : nvramCommit h = some (0, h')) (a : PageAddr)
    (ho : ∀ q : Partition, q.bytes = h'.mmap → ∃ h'', nvramOpen host a q false = some (some h'')) :
    sizes (fitting h) + 26 ≤ h.space := by
  by_cases hc : headerLen ≤ h.space ∧ padEnd h ≤ h.space
  · obtain ⟨hlen, o, h1, z, cvi, cr, cn, -, -, e', hC⟩ := nvramCommit_some hr ht hc.1 hc.2
    rw [e'] at he
    obtain ⟨-, rfl⟩ := Prod.mk.inj (Option.some.inj he)
    refine (newLen_lt hr).mp ?_
    by_contra hlt
    have hn := nvramOpen_committed hr hlen hC a hC.ready.partition false rfl
    rw [if_neg (by simpa using hlt)] at hn
    obtain ⟨h'', e''⟩ := ho hC.ready.partition rfl
    rw [hn] at e''
    exact absurd e'' (by simp)
  · rw [(nvramCommit_none ht hc).2] at he
    exact absurd he (by simp)

theorem CommitKeeps.room {h : Handle host} (hr : Ready h) (ht : Sound h.table)
    (hs : h.size + 22 ≤ h.space) (hk : CommitKeeps h) : h.size + 26 ≤ h.space := by
  obtain ⟨h', he, -, -, ho⟩ := hk
  rw [← sizes_fitting_all hs]
  refine room_of_reopen hr ht he somePage fun q hq => ?_
  obtain ⟨h'', e, -⟩ := ho somePage q false hq
  exact ⟨h'', e⟩

/-- **Commit and parse.**  For every handle a program can reach with names free of `=`, and whose
tuples fit in front of the double NUL, the round trip holds exactly when one more word is free. -/
theorem commitKeeps_iff {h : Handle host} (hr : Reach (fun k => eqSign ∉ k.bytes) h)
    (hs : h.size + 22 ≤ h.space) : CommitKeeps h ↔ h.size + 26 ≤ h.space := by
  obtain ⟨h1, h2⟩ := hr.invariant fun k hk => hk
  exact ⟨CommitKeeps.room h1 h2 hs, CommitKeeps.of_room h1 h2⟩

theorem commitKeeps_iff_filled :
    ∃ h : Handle littleHost, Reach (fun k => eqSign ∉ k.bytes) h ∧ h.size + 22 ≤ h.space ∧
      CommitKeeps h := by
  obtain ⟨h, hr, hsp, hsz⟩ := filled 100 (by decide)
  exact ⟨h, hr, by omega, (commitKeeps_iff hr (by omega)).mpr (by omega)⟩

/-- a table that fits in front of the double NUL and leaves no further word -/
theorem commitKeeps_full :
    ∃ h : Handle littleHost, Reach (fun k => eqSign ∉ k.bytes) h ∧ h.size + 22 ≤ h.space ∧
      ¬ CommitKeeps h := by
  obtain ⟨h, hr, hsp, hsz⟩ := filled 32662 (by decide)
  obtain ⟨h1, h2⟩ := hr.invariant fun k hk => hk
  refine ⟨h, hr, by omega, fun hk => ?_⟩
  have := CommitKeeps.room h1 h2 (by omega) hk
  omega

/-! ## a lost tuple is reported -/

/-- success means that every tuple is in the image, and a table that does not fit gives an
error -/
def LossReported (h : Handle host) : Prop :=
  (∀ h' o, nvramCommit h = some (0, h') → commitImage h = some o →
    ∀ t ∈ h.table.entries, t ∈ o.written) ∧
  (¬ h.size + 22 ≤ h.space → ∃ r h', nvramCommit h = some (r, h') ∧ r ≠ 0)

theorem LossReported.of_room {p : CStr → Prop} {h : Handle host} (hr : Ready h)
    (ht : SoundFor p h.table) (hs : h.size + 22 ≤ h.space) : LossReported h := by
  refine ⟨fun h' o he ho t hm => ?_, fun hn => absurd hs hn⟩
  by_cases hc : headerLen ≤ h.space ∧ padEnd h ≤ h.space
  · obtain ⟨-, o', h1, z, cvi, cr, cn, ho', hw, -⟩ := nvramCommit_some hr ht hc.1 hc.2
    rw [ho'] at ho
    obtain rfl := Option.some.inj ho
    rw [hw, fitting_all hs]
    exact hm
  · rw [(nvramCommit_none ht hc).1] at ho
    exact absurd ho (by simp)

theorem LossReported.room {p : CStr → Prop} {h : Handle host} (hr : Ready h)
    (ht : SoundFor p h.table) (hl : LossReported h) : h.size + 22 ≤ h.space := by
  by_contra hn
  obtain ⟨r, h', he, h0⟩ := hl.2 hn
  exact h0 (nvramCommit_ready hr ht he).1

/-- **Lost tuples.**  `nvram_commit` never returns an error: for every reachable handle loss is
reported only where there is none. -/
theorem lossReported_iff {h : Handle host} (hr : Reach (fun _ => True) h) :
    LossReported h ↔ h.size + 22 ≤ h.space := by
  obtain ⟨h1, h2⟩ := hr.invariant fun _ _ => trivial
  exact ⟨LossReported.room h1 h2, LossReported.of_room h1 h2⟩

theorem lossReported_iff_filled :
    ∃ h : Handle littleHost, Reach (fun _ => True) h ∧ LossReported h := by
  obtain ⟨h, hr, hsp, hsz⟩ := filled 100 (by decide)
  have hr' := hr.mono (q := fun _ => True) fun _ _ => trivial
  exact ⟨h, hr', (lossReported_iff hr').mpr (by omega)⟩

/-- a value that `nvram_set` admits and the image has no room for -/
theorem lossReported_overfull :
    ∃ h : Handle littleHost, Reach (fun _ => True) h ∧ ¬ LossReported h := by
  obtain ⟨h, hr, hsp, hsz⟩ := filled 32700 (by decide)
  have hr' := hr.mono (q := fun _ => True) fun _ _ => trivial
  obtain ⟨h1, h2⟩ := hr'.invariant fun _ _ => trivial
  refine ⟨h, hr', fun hl => ?_⟩
  have := LossReported.room h1 h2 hl
  omega

/-! ## the image can be opened for writing -/

/-- the commit stays inside the partition, the length word is below the space, and `nvram_open`
with `NVRAM_RW` accepts the image -/
def Reopens (h : Handle host) : Prop :=
  ∃ h' len, nvramCommit h = some (0, h') ∧ load32 host.big h'.area 4 = some len ∧
    len.toNat < h'.space ∧
    ∀ (a : PageAddr) (p : Partition), p.bytes = h'.mmap →
      ∃ h'', nvramOpen host a p false = some (some h'')

theorem Reopens.of_room {p : CStr → Prop} {h : Handle host} (hr : Ready h)
    (ht : SoundFor p h.table) (hT : sizes (fitting h) + 26 ≤ h.space) : Reopens h := by
  have e20 : headerLen = 20 := rfl
  obtain ⟨hlen, o, h', z, cvi, cr, cn, -, -, he, hc⟩ :=
    nvramCommit_some hr ht (by omega) (padEnd_le hr hT)
  have hlt := (newLen_lt hr).mpr hT
  have hoff := hr.offset_le
  have harea : h'.area = headerBytes host.big (UInt32.ofNat (newLen h)) cvi cr cn
      ++ (records (pairs (fitting h)) ++ 0 :: z) := by
    unfold Handle.area
    rw [hc.offset, hc.mmap]
    exact List.drop_left' (by rw [List.length_take]; omega)
  refine ⟨h', _, he, (load32_header harea).2, ?_, fun a q hq => ?_⟩
  · rw [newLen_word hr hlen, hc.space]
    exact hlt
  · have ho := nvramOpen_committed hr hlen hc a q false hq
    rw [if_pos (Or.inr hlt)] at ho
    obtain ⟨h'', e, -⟩ := ho
    exact ⟨h'', e⟩

theorem Reopens.room {p : CStr → Prop} {h : Handle host} (hr : Ready h)
    (ht : SoundFor p h.table) (hR : Reopens h) : sizes (fitting h) + 26 ≤ h.space := by
  obtain ⟨h', len, he, -, -, ho⟩ := hR
  exact room_of_reopen hr ht he somePage (ho somePage)

/-- **Reopening.**  For every reachable handle the committed image is accepted for writing exactly
when the tuples that fit leave one word more than the double NUL. -/
theorem reopens_iff {h : Handle host} (hr : Reach (fun _ => True) h) :
    Reopens h ↔ sizes (fitting h) + 26 ≤ h.space := by
  obtain ⟨h1, h2⟩ := hr.invariant fun _ _ => trivial
  exact ⟨Reopens.room h1 h2, Reopens.of_room h1 h2⟩

theorem reopens_iff_filled : ∃ h : Handle littleHost, Reach (fun _ => True) h ∧ Reopens h := by
  obtain ⟨h, hr, hsp, hsz⟩ := filled 100 (by decide)
  have hr' := hr.mono (q := fun _ => True) fun _ _ => trivial
  refine ⟨h, hr', (reopens_iff hr').mpr ?_⟩
  rw [sizes_fitting_all (by omega)]
  omega

/-- a table that uses the partition up to the double NUL -/
theorem reopens_full : ∃ h : Handle littleHost, Reach (fun _ => True) h ∧ ¬ Reopens h := by
  obtain ⟨h, hr, hsp, hsz⟩ := filled 32662 (by decide)
  have hr' := hr.mono (q := fun _ => True) fun _ _ => trivial
  obtain ⟨h1, h2⟩ := hr'.invariant fun _ _ => trivial
  refine ⟨h, hr', fun hk => ?_⟩
  have := Reopens.room h1 h2 hk
  rw [sizes_fitting_all (by omega)] at this
  omega

end Nvram
