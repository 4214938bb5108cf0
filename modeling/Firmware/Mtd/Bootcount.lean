import Firmware.Mtd.Device

/-!
# mtd: the Linksys boot counter

The counter is a log: one entry in each page, and behind the last entry erased pages.
`mtd_resetbc` appends an entry with the count 0, on an erased partition if the log is full.

* `scan`         the loop that looks for the last entry;
* `resetbc`      `mtd_resetbc`; `none` is a division by 0, or an access outside `page`;
* `Log`          a partition that holds such a log;
* `resetbc_log`  what becomes of it.
-/

set_option linter.unusedVariables false

namespace Bootcount
open Img Word Mtd

def bootcountMagic : UInt32 := 0x20110811

/-- `sizeof(struct bootcounter)`: the magic, the count, the checksum -/
def bootcounterLen : Nat := 12

def magicOf (big : Bool) (curr : List UInt8) : UInt32 := get32 big (slice curr 0 4)
def countOf (big : Bool) (curr : List UInt8) : UInt32 := get32 big (slice curr 4 4)

/-- the entry that is written -/
def bootcounter (big : Bool) : List UInt8 :=
  put32 big bootcountMagic ++ (put32 big 0 ++ put32 big bootcountMagic)

/-- `pread`: at the end of the partition the rest of the buffer keeps what it held -/
def pread (mem page : List UInt8) (n off : Nat) : List UInt8 := poke page 0 (slice mem off n)

/-- `pwrite`: bits are cleared only -/
def pwrite (mem data : List UInt8) (off : Nat) : List UInt8 :=
  poke mem off (program (slice mem off data.length) data)

/-- `n` pages from page `i` on: where the loop stops, and `last_count`; `none` is an unexpected
magic -/
def scan (big : Bool) (ws : Nat) (mem : List UInt8) :
    Nat → Nat → UInt32 → List UInt8 → Option (Nat × UInt32)
  | 0, i, last, _ => some (i, last)
  | n + 1, i, last, page =>
    let curr := pread mem page bootcounterLen (i * ws)
    if magicOf big curr ≠ bootcountMagic ∧ magicOf big curr ≠ 0xffffffff then none
    else if magicOf big curr = 0xffffffff then some (i, last)
    else scan big ws mem n (i + 1) (countOf big curr) curr

/-- which of the calls succeed -/
structure Io where
  getInfo : Bool
  erase : Bool
  write : Bool

def noError : Io := ⟨true, true, true⟩

/-- the return value, and the partition -/
def resetbc (big : Bool) (io : Io) (ws : Nat) (mem page : List UInt8) :
    Option (Int × List UInt8) :=
  if io.getInfo = false then some (-1, mem)
  else if ws = 0 then none
  else
    let numBc := mem.length / ws
    match scan big ws mem numBc 0 0 page with
    | none => some (0, mem)
    | some (i, last) =>
      if last = 0 then some (0, mem)
      else if i = numBc ∧ io.erase = false then some (-1, mem)
      else
        let mem := if i = numBc then List.replicate mem.length 0xff else mem
        let i := if i = numBc then 0 else i
        (store page 0 (List.replicate ws 0xff)).bind fun page =>
          (store page 0 (bootcounter big)).map fun page =>
            (0, if io.write then pwrite mem (page.take ws) (i * ws) else mem)

/-! ## logs -/

/-- a page with an entry -/
structure IsEntry (big : Bool) (ws : Nat) (p : List UInt8) : Prop where
  length : p.length = ws
  room : bootcounterLen ≤ ws
  magic : magicOf big p = bootcountMagic

/-- entries, and erased pages behind them: a magic at least -/
structure Log (big : Bool) (ws : Nat) where
  entries : List (List UInt8)
  erased : Nat
  page : 0 < ws
  ok : ∀ p ∈ entries, IsEntry big ws p
  word : erased ≠ 0 → 4 ≤ erased * ws

variable {big : Bool} {ws : Nat}

/-- the content of the partition -/
def Log.mem (l : Log big ws) : List UInt8 :=
  l.entries.flatten ++ List.replicate (l.erased * ws) 0xff

/-- the count of the last entry -/
def countFrom (big : Bool) (last : UInt32) (entries : List (List UInt8)) : UInt32 :=
  (entries.getLast?.map (countOf big)).getD last

def Log.lastCount (l : Log big ws) : UInt32 := countFrom big 0 l.entries

/-- the page that `mtd_resetbc` writes -/
def zeroEntry (big : Bool) (ws : Nat) : List UInt8 := padTo ws (bootcounter big)

theorem bootcounter_length (big : Bool) : (bootcounter big).length = bootcounterLen := by
  unfold bootcounter bootcounterLen
  rw [List.length_append, List.length_append, put32_length, put32_length]

theorem zeroEntry_length (h : bootcounterLen ≤ ws) : (zeroEntry big ws).length = ws :=
  padTo_length (by rw [bootcounter_length]; exact h)

theorem zeroEntry_split (big : Bool) (ws : Nat) : zeroEntry big ws = put32 big bootcountMagic ++
    (put32 big 0 ++ (put32 big bootcountMagic ++ List.replicate (ws - bootcounterLen) 0xff)) := by
  unfold zeroEntry padTo
  rw [bootcounter_length]
  unfold bootcounter
  rw [List.append_assoc, List.append_assoc]

theorem zeroEntry_entry (h : bootcounterLen ≤ ws) : IsEntry big ws (zeroEntry big ws) := by
  have hm : slice (zeroEntry big ws) 0 4 = put32 big bootcountMagic :=
    slice_of_split (a := []) (zeroEntry_split big ws) rfl (put32_length big _)
  refine ⟨zeroEntry_length h, h, ?_⟩
  unfold magicOf
  rw [hm, get32_put32]

theorem zeroEntry_count (big : Bool) (ws : Nat) : countOf big (zeroEntry big ws) = 0 := by
  unfold countOf
  rw [slice_of_split (zeroEntry_split big ws) (put32_length big _) (put32_length big _),
    get32_put32]

theorem flatten_length {entries : List (List UInt8)} (h : ∀ p ∈ entries, IsEntry big ws p) :
    entries.flatten.length = entries.length * ws := by
  induction entries with
  | nil => exact (Nat.zero_mul ws).symm
  | cons p entries ih =>
    rw [List.flatten_cons, List.length_append, (h p List.mem_cons_self).length,
      ih fun q hq => h q (List.mem_cons_of_mem p hq), List.length_cons, Nat.succ_mul, Nat.add_comm]

theorem Log.mem_length (l : Log big ws) :
    l.mem.length = (l.entries.length + l.erased) * ws := by
  unfold Log.mem
  rw [List.length_append, flatten_length l.ok, List.length_replicate, Nat.add_mul]

theorem Log.pages (l : Log big ws) : l.mem.length / ws = l.entries.length + l.erased := by
  rw [l.mem_length, Nat.mul_div_cancel _ l.page]

/-! ## the scan -/

/-- the loop stops at an erased page -/
theorem scan_erased {mem pre : List UInt8} {k i : Nat} (hm : mem = pre ++ List.replicate k 0xff)
    (hp : pre.length = i * ws) (hk : 4 ≤ k) (n : Nat) (last : UInt32) (page : List UInt8) :
    scan big ws mem (n + 1) i last page = some (i, last) := by
  have hread : slice mem (i * ws) bootcounterLen = List.replicate (min bootcounterLen k) 0xff := by
    rw [hm, slice_append_right _ _ _ _ (by omega), hp, Nat.sub_self]
    exact List.take_replicate
  have hmagic : magicOf big (pread mem page bootcounterLen (i * ws)) = 0xffffffff := by
    have h4 : slice (pread mem page bootcounterLen (i * ws)) 0 4 = List.replicate 4 0xff := by
      unfold pread
      rw [hread]
      show slice (List.replicate (min bootcounterLen k) (0xff : UInt8) ++ _) 0 4 = _
      rw [slice_append_left _ _ _ _ (by
        rw [List.length_replicate]
        unfold bootcounterLen
        omega)]
      show List.take 4 _ = _
      rw [List.drop_zero, List.take_replicate]
      unfold bootcounterLen
      rw [show min 4 (min 12 k) = 4 by omega]
    unfold magicOf
    rw [h4]
    cases big <;> decide
  unfold scan
  simp only [hmagic]
  rw [if_neg (by simp), if_pos trivial]

/-- an entry is passed -/
theorem scan_entry {mem pre p post : List UInt8} {i : Nat} (hm : mem = pre ++ (p ++ post))
    (hp : pre.length = i * ws) (he : IsEntry big ws p) (n : Nat) (last : UInt32)
    (page : List UInt8) :
    ∃ page', scan big ws mem (n + 1) i last page
      = scan big ws mem n (i + 1) (countOf big p) page' := by
  have hl : bootcounterLen ≤ p.length := he.length ▸ he.room
  have hread : slice mem (i * ws) bootcounterLen = p.take bootcounterLen := by
    rw [hm, slice_append_right _ _ _ _ (by omega), hp, Nat.sub_self,
      slice_append_left _ _ _ _ (by rwa [Nat.zero_add])]
    rfl
  -- the fields of the entry are in the bytes that were read
  have hfield : ∀ off, off + 4 ≤ bootcounterLen →
      slice (pread mem page bootcounterLen (i * ws)) off 4 = slice p off 4 := by
    intro off ho
    unfold pread
    rw [hread]
    show slice (p.take bootcounterLen ++ _) off 4 = _
    have ht : off + 4 ≤ (p.take bootcounterLen).length := by
      rw [List.length_take]
      omega
    rw [slice_append_left _ _ _ _ ht]
    conv_rhs => rw [← List.take_append_drop bootcounterLen p]
    rw [slice_append_left _ _ _ _ ht]
  have hmagic : magicOf big (pread mem page bootcounterLen (i * ws)) = bootcountMagic := by
    unfold magicOf
    rw [hfield 0 (by decide)]
    exact he.magic
  have hcount : countOf big (pread mem page bootcounterLen (i * ws)) = countOf big p := by
    unfold countOf
    rw [hfield 4 (by decide)]
  refine ⟨pread mem page bootcounterLen (i * ws), ?_⟩
  conv_lhs => unfold scan
  simp only [hmagic, hcount]
  rw [if_neg (by simp), if_neg (by decide)]

theorem countFrom_cons (big : Bool) (last : UInt32) (p : List UInt8)
    (entries : List (List UInt8)) :
    countFrom big last (p :: entries) = countFrom big (countOf big p) entries := by
  unfold countFrom
  cases entries with
  | nil => rfl
  | cons q entries => rw [List.getLast?_cons_cons, List.getLast?_cons]; rfl

/-- **The scan** of a log stops behind its last entry. -/
theorem scan_log {mem : List UInt8} {m : Nat} (hword : m ≠ 0 → 4 ≤ m * ws) :
    ∀ (entries : List (List UInt8)) (pre : List UInt8) (i : Nat) (last : UInt32)
      (page : List UInt8), (∀ p ∈ entries, IsEntry big ws p) → pre.length = i * ws →
      mem = pre ++ (entries.flatten ++ List.replicate (m * ws) 0xff) →
      scan big ws mem (entries.length + m) i last page
        = some (i + entries.length, countFrom big last entries) := by
  intro entries
  induction entries with
  | nil =>
    intro pre i last page _ hp hm
    rw [List.length_nil, Nat.zero_add]
    cases m with
    | zero => rfl
    | succ m => exact scan_erased hm hp (hword (Nat.succ_ne_zero m)) m last page
  | cons p entries ih =>
    intro pre i last page hok hp hm
    have he := hok p List.mem_cons_self
    rw [List.flatten_cons, List.append_assoc] at hm
    obtain ⟨page', h⟩ := scan_entry hm hp he (entries.length + m) last page
    rw [List.length_cons, Nat.add_right_comm, h, countFrom_cons,
      ih (pre ++ p) (i + 1) _ page' (fun q hq => hok q (List.mem_cons_of_mem p hq))
        (by rw [List.length_append, hp, he.length, Nat.add_mul, Nat.one_mul])
        (by rw [hm, List.append_assoc]),
      Nat.add_right_comm, Nat.add_assoc]

theorem Log.scan (l : Log big ws) (page : List UInt8) :
    scan big ws l.mem (l.mem.length / ws) 0 0 page = some (l.entries.length, l.lastCount) := by
  have h := scan_log l.word l.entries [] 0 0 page l.ok (Nat.zero_mul ws).symm rfl
  rw [Nat.zero_add] at h
  rw [l.pages]
  exact h

/-! ## the reset -/

theorem program_replicate (l : List UInt8) {n : Nat} (h : l.length = n) :
    program (List.replicate n 0xff) l = l := by
  subst h
  exact program_erased l

/-- an entry is written to the first erased page -/
theorem pwrite_log {entries : List (List UInt8)} {m : Nat}
    (h : ∀ p ∈ entries, IsEntry big ws p) {data : List UInt8} (hd : data.length = ws) :
    pwrite (entries.flatten ++ List.replicate ((m + 1) * ws) 0xff) data (entries.length * ws)
      = (entries ++ [data]).flatten ++ List.replicate (m * ws) 0xff := by
  have hsplit : entries.flatten ++ List.replicate ((m + 1) * ws) 0xff = entries.flatten ++
      (List.replicate ws (0xff : UInt8) ++ List.replicate (m * ws) 0xff) := by
    rw [List.replicate_append_replicate, Nat.add_mul, Nat.one_mul, Nat.add_comm (m * ws)]
  have hl := flatten_length h
  have hread : slice (entries.flatten ++ List.replicate ((m + 1) * ws) 0xff) (entries.length * ws)
      data.length = List.replicate ws 0xff :=
    slice_of_split hsplit hl (by rw [List.length_replicate, hd])
  unfold pwrite
  rw [hread, program_replicate data hd,
    poke_of_split hsplit hl (by rw [hd, List.length_replicate]), List.flatten_append,
    List.append_assoc, List.flatten_cons, List.flatten_nil, List.append_nil]

/-- what is written: the entry, padded to a page -/
theorem page_take {page : List UInt8} (hp : page.length = 2048) (h : bootcounterLen ≤ ws)
    (hws : ws ≤ 2048) : ∃ page₁ page₂, store page 0 (List.replicate ws 0xff) = some page₁ ∧
      store page₁ 0 (bootcounter big) = some page₂ ∧ page₂.take ws = zeroEntry big ws := by
  have h1 : store page 0 (List.replicate ws 0xff)
      = some (List.replicate ws 0xff ++ page.drop ws) := by
    have := store_behind (List.nil_append page).symm (p := []) rfl
      (by rw [List.length_replicate, hp]; exact hws : (List.replicate ws (0xff : UInt8)).length ≤ _)
    rw [List.length_replicate] at this
    exact this
  have h2 : store (List.replicate ws 0xff ++ page.drop ws) 0 (bootcounter big)
      = some (bootcounter big ++ (List.replicate (ws - bootcounterLen) 0xff ++ page.drop ws)) := by
    have hs : List.replicate ws 0xff ++ page.drop ws = [] ++
        (List.replicate bootcounterLen (0xff : UInt8) ++
          (List.replicate (ws - bootcounterLen) 0xff ++ page.drop ws)) := by
      rw [List.nil_append, ← List.append_assoc, List.replicate_append_replicate,
        Nat.add_sub_cancel' h]
    exact store_split hs rfl (by rw [bootcounter_length, List.length_replicate])
  have hz : zeroEntry big ws = bootcounter big ++ List.replicate (ws - bootcounterLen) 0xff := by
    unfold zeroEntry padTo
    rw [bootcounter_length]
  refine ⟨_, _, h1, h2, ?_⟩
  rw [← List.append_assoc, ← hz]
  exact List.take_left' (zeroEntry_length h)

/-- the entry with the count 0, behind the others -/
def Log.push (l : Log big ws) (h : bootcounterLen ≤ ws) (m : Nat) : Log big ws where
  entries := l.entries ++ [zeroEntry big ws]
  erased := m
  page := l.page
  ok := fun p hp => (List.mem_append.mp hp).elim (l.ok p) fun hz =>
    List.mem_singleton.mp hz ▸ zeroEntry_entry h
  word := fun hm => by
    have := Nat.mul_le_mul (Nat.one_le_iff_ne_zero.mpr hm) h
    unfold bootcounterLen at this
    omega

/-- the log without entries -/
def Log.wiped (l : Log big ws) (h : bootcounterLen ≤ ws) : Log big ws where
  entries := []
  erased := l.entries.length + l.erased
  page := l.page
  ok := nofun
  word := fun hm => by
    have := Nat.mul_le_mul (Nat.one_le_iff_ne_zero.mpr hm) h
    unfold bootcounterLen at this
    omega

theorem Log.push_lastCount (l : Log big ws) (h : bootcounterLen ≤ ws) (m : Nat) :
    (l.push h m).lastCount = 0 := by
  unfold Log.lastCount countFrom Log.push
  rw [List.getLast?_concat]
  exact zeroEntry_count big ws

/-- a page has room for an entry as soon as there is one -/
theorem Log.room (l : Log big ws) (h : l.lastCount ≠ 0) : l.entries ≠ [] ∧ bootcounterLen ≤ ws := by
  have hne : l.entries ≠ [] := by
    intro e
    apply h
    unfold Log.lastCount
    rw [e]
    rfl
  obtain ⟨p, hp⟩ := List.exists_mem_of_ne_nil _ hne
  exact ⟨hne, (l.ok p hp).room⟩

theorem resetbc_zero (l : Log big ws) (h : l.lastCount = 0) (io : Io) (hio : io.getInfo = true)
    (page : List UInt8) : resetbc big io ws l.mem page = some (0, l.mem) := by
  unfold resetbc
  rw [hio, if_neg (by simp), if_neg (Nat.ne_of_gt l.page)]
  simp only [l.scan page]
  rw [if_pos h]

section
variable (l : Log big ws) (h : l.lastCount ≠ 0) (hws : ws ≤ 2048) {page : List UInt8}
  (hp : page.length = 2048)
include h hws hp

/-- the last count is not 0, and the log is not full -/
theorem resetbc_push {m : Nat} (hm : l.erased = m + 1) :
    resetbc big noError ws l.mem page = some (0, (l.push (l.room h).2 m).mem) := by
  obtain ⟨page₁, page₂, h1, h2, h3⟩ := @page_take big ws page hp (l.room h).2 hws
  have hi : l.entries.length ≠ l.mem.length / ws := by
    rw [l.pages]
    omega
  have hw : pwrite l.mem (zeroEntry big ws) (l.entries.length * ws)
      = (l.push (l.room h).2 m).mem := by
    have := pwrite_log (m := m) l.ok (@zeroEntry_length big ws (l.room h).2)
    unfold Log.mem
    rw [hm]
    exact this
  unfold resetbc
  rw [if_neg (by simp [noError]), if_neg (Nat.ne_of_gt l.page)]
  simp only [l.scan page]
  rw [if_neg h, if_neg (fun hc => hi hc.1)]
  simp only [if_neg hi]
  rw [h1, Option.bind_some, h2, Option.map_some, h3, hw]
  rfl

/-- the log is full: it is erased first -/
theorem resetbc_wipe (hm : l.erased = 0) : resetbc big noError ws l.mem page
    = some (0, ((l.wiped (l.room h).2).push (l.room h).2 (l.entries.length - 1)).mem) := by
  obtain ⟨page₁, page₂, h1, h2, h3⟩ := @page_take big ws page hp (l.room h).2 hws
  have hlen : l.entries.length = l.entries.length - 1 + 1 := by
    have := List.length_pos_iff.mpr (l.room h).1
    omega
  have hi : l.entries.length = l.mem.length / ws := by
    rw [l.pages, hm, Nat.add_zero]
  have hw : pwrite (List.replicate l.mem.length 0xff) (zeroEntry big ws) (0 * ws)
      = ((l.wiped (l.room h).2).push (l.room h).2 (l.entries.length - 1)).mem := by
    have := @pwrite_log big ws [] (l.entries.length - 1) nofun _
      (@zeroEntry_length big ws (l.room h).2)
    rw [← hlen] at this
    rw [l.mem_length, hm, Nat.add_zero]
    exact this
  unfold resetbc
  rw [if_neg (by simp [noError]), if_neg (Nat.ne_of_gt l.page)]
  simp only [l.scan page]
  rw [if_neg h, if_neg (fun hc => absurd hc.2 (by simp [noError]))]
  simp only [if_pos hi]
  rw [h1, Option.bind_some, h2, Option.map_some, h3, hw]
  rfl

end

/-- **Resetting the counter**: the log is still a log, a scan of it finds the count 0, its entries
are kept unless it was full, and a second reset does nothing. -/
theorem resetbc_log (l : Log big ws) (hws : ws ≤ 2048) {page : List UInt8}
    (hp : page.length = 2048) :
    ∃ l' : Log big ws, resetbc big noError ws l.mem page = some (0, l'.mem) ∧
      l'.mem.length = l.mem.length ∧
      (∀ page', Bootcount.scan big ws l'.mem (l'.mem.length / ws) 0 0 page'
        = some (l'.entries.length, 0)) ∧
      (l.erased = 0 ∧ l.lastCount ≠ 0 → l'.entries = [zeroEntry big ws]) ∧
      (¬ (l.erased = 0 ∧ l.lastCount ≠ 0) → l.entries <+: l'.entries) ∧
      ∀ page', resetbc big noError ws l'.mem page' = some (0, l'.mem) := by
  -- the last two parts of what is claimed follow from a last count of 0
  suffices hmain : ∃ l' : Log big ws, resetbc big noError ws l.mem page = some (0, l'.mem) ∧
      l'.mem.length = l.mem.length ∧ l'.lastCount = 0 ∧
      (l.erased = 0 ∧ l.lastCount ≠ 0 → l'.entries = [zeroEntry big ws]) ∧
      (¬ (l.erased = 0 ∧ l.lastCount ≠ 0) → l.entries <+: l'.entries) by
    obtain ⟨l', h1, h2, h3, h4, h5⟩ := hmain
    exact ⟨l', h1, h2, fun page' => h3 ▸ l'.scan page', h4, h5, resetbc_zero l' h3 noError rfl⟩
  by_cases h : l.lastCount = 0
  · exact ⟨l, resetbc_zero l h noError rfl page, rfl, h, fun hc => absurd h hc.2,
      fun _ => List.prefix_refl _⟩
  · have hroom := (l.room h).2
    cases hm : l.erased with
    | zero =>
      have hpos := List.length_pos_iff.mpr (l.room h).1
      refine ⟨_, resetbc_wipe l h hws hp hm, ?_, Log.push_lastCount _ hroom _, fun _ => rfl,
        fun hc => absurd ⟨rfl, h⟩ hc⟩
      rw [Log.mem_length, Log.mem_length, hm]
      congr 1
      show 0 + 1 + (l.entries.length - 1) = _
      omega
    | succ m =>
      refine ⟨_, resetbc_push l h hws hp hm, ?_, Log.push_lastCount _ hroom _,
        fun hc => absurd hc.1 (Nat.succ_ne_zero m), fun _ => List.prefix_append _ _⟩
      rw [Log.mem_length, Log.mem_length, hm]
      congr 1
      show (l.entries ++ [zeroEntry big ws]).length + m = _
      rw [List.length_append, List.length_singleton, Nat.add_assoc, Nat.add_comm 1]

/-- three boots were counted, and one page is left -/
def threeBoots : Log false 12 where
  entries := [[0x11, 0x08, 0x11, 0x20, 3, 0, 0, 0, 0x14, 0x08, 0x11, 0x20]]
  erased := 1
  page := by decide
  ok := fun p hp => List.mem_singleton.mp hp ▸ ⟨rfl, by decide, by decide⟩
  word := fun _ => by decide

theorem resetbc_log_three :
    ∃ l' : Log false 12, resetbc false noError 12 threeBoots.mem (List.replicate 2048 0)
        = some (0, l'.mem) ∧ l'.mem.length = threeBoots.mem.length ∧
      (∀ page', scan false 12 l'.mem (l'.mem.length / 12) 0 0 page'
        = some (l'.entries.length, 0)) ∧
      (threeBoots.erased = 0 ∧ threeBoots.lastCount ≠ 0 → l'.entries = [zeroEntry false 12]) ∧
      (¬ (threeBoots.erased = 0 ∧ threeBoots.lastCount ≠ 0) → threeBoots.entries <+: l'.entries) ∧
      ∀ page', resetbc false noError 12 l'.mem page' = some (0, l'.mem) :=
  resetbc_log threeBoots (by decide) List.length_replicate

end Bootcount
