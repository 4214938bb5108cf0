import Firmware.Bqtool.Params

/-!
# bqtool: which parameters are written

What `write_params_block` leaves in the data memory, for every list of parameters.

* `Right`        every byte is that of the last parameter that covers it, the others are unchanged;
* `WritesAll`    so it is for all values of parameters of one shape;
* `Survives`     the dirty block is not loaded again behind a parameter before it is written back, or
                 twice, or four times;
* `Orderly`      the condition on the shape;
* `writeParamsBlock_iff` the two are the same.
-/

set_option linter.unusedVariables false

namespace Bqtool
open Word

/-! ## What the function is for -/

/-- the first byte of a parameter, counted from the beginning of its subclass -/
def Layout.start (l : Layout) : Nat := (l.offset &&& 0xFF).toNat

/-- the byte `j` of the block `b` is one of the bytes of a parameter -/
def Layout.covers (g : Gauge) (l : Layout) (b : Block) (j : Fin 32) : Bool :=
  b.1 = l.subclass ∧ l.start ≤ 32 * b.2.toNat + j ∧ 32 * b.2.toNat + j < l.start + l.size g

structure Right (host : ByteOrder) (g : Gauge) (ps : List Param) (m m' : Memory) : Prop where
  covered : ∀ pre t post, ps = pre ++ t :: post → ∀ b j, t.covers g b j = true →
    (∀ u ∈ post, u.covers g b j = false) →
    ∃ d, t.encode host g = some d ∧ d[32 * b.2.toNat + j.val - t.start]? = some (m' b j)
  others : ∀ b j, (∀ p ∈ ps, p.covers g b j = false) → m' b j = m b j

/-- what a parameter is apart from its value, and whether it is inside its limits -/
def Param.shape (p : Param) : Layout × Bool := (p.toLayout, checkLimits p)

def WritesAll (host : ByteOrder) (g : Gauge) (ls : List (Layout × Bool)) : Prop :=
  ∀ ps : List Param, ps.map Param.shape = ls → ∀ stack dev, ∃ r dev',
    writeParamsBlock memoryBus host g stack ps dev = some (r, dev')
      ∧ (r = true → Right host g ps dev.mem dev'.mem)

/-! ## The condition -/

/-- the parameters before the first that is outside its limits, and the others -/
def reached (ls : List (Layout × Bool)) : List Layout := (ls.takeWhile Prod.snd).map Prod.fst

def behind (ls : List (Layout × Bool)) : List Layout := (ls.dropWhile Prod.snd).map Prod.fst

/-- the block that is in the buffer after a parameter -/
def Layout.ends (l : Layout) : Block := if l.twoblocks then l.next else l.block

/-- how often parameters that leave `b` in the buffer begin in the block before it -/
def exchanges (b : Block) (ls : List Layout) : Nat :=
  (ls.takeWhile fun l => l.ends = b).countP Layout.twoblocks

/-- the block `b` is dirty after `t`; `dropped`: the buffer is not written at the end -/
def Survives (dropped : Bool) (b : Block) (t : Layout) (post : List Layout) : Prop :=
  t.ends = b →
    if dropped = true ∧ ∀ l ∈ post, l.ends = b then ¬ Even (exchanges b post)
    else Even (exchanges b post)

def dropped (ls : List (Layout × Bool)) : Bool := !(behind ls).isEmpty

structure Orderly (host : ByteOrder) (g : Gauge) (ls : List (Layout × Bool)) : Prop where
  /-- no float on a big-endian host is said to be longer than a float -/
  whole : ∀ l ∈ reached ls, ¬ (host = .BE ∧ l.xFloat g = true ∧ 4 < l.dataLen.toNat)
  /-- what is not reached is empty -/
  empty : ∀ l ∈ behind ls, l.size g = 0
  /-- there is a last parameter, and it does not run into the next block -/
  last : behind ls = [] → ∃ l ∈ (reached ls).getLast?, l.twoblocks = false
  /-- the last parameter that covers a byte stores it, and it is not lost -/
  kept : ∀ pre t post, reached ls = pre ++ t :: post → ∀ b j, t.covers g b j = true →
    (∀ u ∈ post, u.covers g b j = false) →
    (b = t.block ∨ t.twoblocks = true) ∧ Survives (dropped ls) b t post

/-! ## Bytes and requests -/

theorem Layout.start_eq (l : Layout) : l.start = 32 * l.blkInd.toNat + l.pos := by
  have h : (l.offset &&& 0xFF).toNat < 256 := by
    rw [UInt32.toNat_and, show (0xFF : UInt32).toNat = 2 ^ 8 - 1 from rfl, Nat.and_two_pow_sub_one_eq_mod]
    exact Nat.mod_lt _ (by decide)
  have hb : ((l.offset &&& 0xFF).toUInt8).toNat = (l.offset &&& 0xFF).toNat := by
    rw [UInt32.toNat_toUInt8]
    exact Nat.mod_eq_of_lt h
  unfold Layout.start Layout.blkInd Layout.pos
  rw [UInt8.toNat_shiftRight, UInt8.toNat_and, hb, Nat.shiftRight_eq_div_pow,
    show 2 ^ ((5 : UInt8).toNat % 8) = 32 from rfl, show (0x1F : UInt8).toNat = 2 ^ 5 - 1 from rfl,
    Nat.and_two_pow_sub_one_eq_mod]
  omega

theorem Layout.size_le (g : Gauge) (l : Layout) : l.size g ≤ 32 := by
  have h := l.len_le
  unfold Layout.size
  split <;> omega

theorem Layout.next_ind (l : Layout) : l.next.2.toNat = l.blkInd.toNat + 1 := by
  have h := l.blkInd_lt
  show (l.blkInd + 1).toNat = _
  rw [UInt8.toNat_add, show (1 : UInt8).toNat = 1 from rfl]
  exact Nat.mod_eq_of_lt (by omega)

theorem covers_iff {g : Gauge} {l : Layout} {b : Block} {j : Fin 32} :
    l.covers g b j = true ↔ b.1 = l.subclass ∧ l.start ≤ 32 * b.2.toNat + j
      ∧ 32 * b.2.toNat + j < l.start + l.size g := by
  unfold Layout.covers
  rw [decide_eq_true_eq]

theorem covers_blocks {g : Gauge} {l : Layout} {b : Block} {j : Fin 32} (h : l.covers g b j = true) :
    b = l.block ∨ b = l.next := by
  obtain ⟨h1, h2, h3⟩ := covers_iff.mp h
  have hs := l.start_eq
  have hp := l.pos_lt
  have hl := l.size_le g
  have hn := l.next_ind
  have hj := j.isLt
  have hcase : b.2.toNat = l.blkInd.toNat ∨ b.2.toNat = l.next.2.toNat := by omega
  rcases hcase with h4 | h4
  · exact .inl (Prod.ext h1 (UInt8.toNat_inj.mp h4))
  · exact .inr (Prod.ext h1 (UInt8.toNat_inj.mp h4))

/-- what a request stores: the bytes in the first block, and those behind it if it takes two -/
theorem put_stored {g : Gauge} {l : Layout} {d : List UInt8} (hd : d.length = l.size g) (b : Block)
    (j : Fin 32) : (l.put d j).stored b
      = if l.covers g b j = true ∧ (b = l.block ∨ l.twoblocks = true)
        then d[32 * b.2.toNat + j.val - l.start]? else none := by
  have hs := l.start_eq
  have hp := l.pos_lt
  have hn := l.next_ind
  have hj := j.isLt
  unfold OneLine.Put.stored
  by_cases hb : l.block = b
  · rw [if_pos (show (l.put d j).blk = b from hb)]
    show (if l.pos ≤ j then d[j.val - l.pos]? else none) = _
    have hi : b.2.toNat = l.blkInd.toNat := by rw [← hb]; rfl
    by_cases h1 : l.pos ≤ j.val
    · have e : 32 * b.2.toNat + j.val - l.start = j.val - l.pos := by omega
      rw [if_pos h1, e]
      by_cases h2 : j.val < l.pos + l.size g
      · rw [if_pos ⟨covers_iff.mpr ⟨by rw [← hb]; rfl, by omega, by omega⟩, .inl hb.symm⟩]
      · rw [if_neg (fun h => by have := (covers_iff.mp h.1).2.2; omega), List.getElem?_eq_none (by omega)]
    · rw [if_neg h1, if_neg fun h => by have := (covers_iff.mp h.1).2.1; omega]
  · have hb' : ¬ (l.put d j).blk = b := hb
    rw [if_neg hb']
    by_cases ht : l.twoblocks = true ∧ l.next = b
    · have ht' : (l.put d j).long = true ∧ (l.put d j).nxt = b := ht
      have e : 32 * b.2.toNat + j.val - l.start = 32 + j.val - l.pos := by
        rw [← ht.2]
        omega
      rw [if_pos ht', e]
      show d[32 + j.val - l.pos]? = _
      by_cases h2 : 32 + j.val < l.pos + l.size g
      · rw [if_pos ⟨covers_iff.mpr ⟨by rw [← ht.2]; rfl, by rw [← ht.2]; omega, by rw [← ht.2]; omega⟩,
          .inr ht.1⟩]
      · rw [if_neg (fun h => by have h3 := (covers_iff.mp h.1).2.2; rw [← ht.2] at h3; omega),
          List.getElem?_eq_none (by omega)]
    · have ht' : ¬ ((l.put d j).long = true ∧ (l.put d j).nxt = b) := ht
      rw [if_neg ht', if_neg]
      rintro ⟨hc, hor⟩
      rcases covers_blocks hc with rfl | rfl
      · exact hb rfl
      · rcases hor with h | h
        · exact hb h.symm
        · exact ht ⟨h, rfl⟩

theorem survives_iff (host : ByteOrder) (g : Gauge) {dropped : Bool} {b : Block} {t : Layout}
    (d : List UInt8) {post : List Param} (j : Fin 32) :
    Survives dropped b t (post.map Param.toLayout)
      ↔ OneLine.Kept dropped b (t.put d j) (puts host g j post) := by
  have hall : (∀ l ∈ post.map Param.toLayout, l.ends = b) ↔ ∀ p ∈ puts host g j post, p.ends = b := by
    unfold puts
    rw [List.forall_mem_map, List.forall_mem_map]
    rfl
  have hcount : exchanges b (post.map Param.toLayout) = OneLine.swaps b (puts host g j post) := by
    unfold exchanges OneLine.swaps OneLine.stays puts
    rw [List.takeWhile_map, List.takeWhile_map, List.countP_map, List.countP_map]
    rfl
  unfold Survives OneLine.Kept
  rw [hcount]
  simp only [hall]
  rfl

/-! ## What is left in the memory -/

theorem data_length {host : ByteOrder} {g : Gauge} {p : Param} (h : p.encode host g ≠ none) :
    (p.data host g).length = p.size g := by
  obtain ⟨d, hd⟩ := Option.ne_none_iff_exists'.mp h
  unfold Param.data
  rw [hd]
  exact encode_length hd

theorem data_eq {host : ByteOrder} {g : Gauge} {p : Param} (h : p.encode host g ≠ none) :
    p.encode host g = some (p.data host g) := by
  obtain ⟨d, hd⟩ := Option.ne_none_iff_exists'.mp h
  unfold Param.data
  rw [hd]
  rfl

theorem lastBlock_append (b : Block) (ps : List Param) (p : Param) :
    lastBlock b (ps ++ [p]) = p.block := by
  unfold lastBlock
  rw [List.foldl_append]
  rfl

theorem start_clear (stack : Vector UInt8 65) (dev : Device) (b : Block) (j : Fin 32) :
    OneLine.Clear b (dev.mem b j) (startColumn stack dev j) := ⟨rfl, fun h => nomatch h⟩

section
variable (host : ByteOrder) (g : Gauge) (stack : Vector UInt8 65) (dev : Device)

theorem run_cur (j : Fin 32) (p : Param) (ps : List Param) (s : OneLine.State Block UInt8) :
    (OneLine.run s (puts host g j (ps ++ [p]))).cur = some p.ends := by
  unfold puts
  rw [List.map_append, OneLine.run_append]
  show (OneLine.step _ (p.put (p.data host g) j)).cur = some (if p.twoblocks then p.next else p.block)
  unfold OneLine.step
  by_cases h : p.twoblocks = true
  · have hl : (p.put (p.data host g) j).long = true := h
    rw [if_pos hl, if_pos h]
    rfl
  · have hl : ¬ (p.put (p.data host g) j).long = true := h
    rw [if_neg hl, if_neg h]
    rfl

/-- the memory at the end, unless the last parameter runs into the next block -/
theorem written_left {done rest : List Param}
    (h : ∀ p ∈ done, checkLimits p = true ∧ p.encode host g ≠ none)
    (hrest : ∀ q ∈ rest.head?, checkLimits q = false)
    (hlast : rest = [] → ∃ p ∈ done.getLast?, p.twoblocks = false) :
    ∃ dev', writeParamsBlock memoryBus host g stack (done ++ rest) dev = some (true, dev')
      ∧ ∀ b j, dev'.mem b j
        = (OneLine.run (startColumn stack dev j) (puts host g j done)).left (!rest.isEmpty) b := by
  cases rest with
  | nil =>
    obtain ⟨dev', he, hm⟩ := writeParamsBlock_all host g stack dev h
    rw [List.append_nil]
    refine ⟨dev', he, fun b j => ?_⟩
    obtain ⟨p, hp, ht⟩ := hlast rfl
    obtain ⟨init, rfl⟩ := List.getLast?_eq_some_iff.mp hp
    have hj := congrFun (hm j) b
    rw [lastBlock_append] at hj
    have hc := run_cur host g j p init (startColumn stack dev j)
    rw [show p.ends = p.block by unfold Layout.ends; rw [ht]; rfl] at hc
    show _ = OneLine.State.flush _ b
    unfold OneLine.State.flush
    rw [hc]
    exact hj
  | cons q rest =>
    obtain ⟨dev', he, hm⟩ := writeParamsBlock_stopped host g stack dev rest h (hrest q rfl)
    exact ⟨dev', he, fun b j => congrFun (hm j) b⟩

end

/-! ## Enough -/

theorem exists_last {α : Type} {P : α → Bool} {l : List α} (h : ∃ a ∈ l, P a = true) :
    ∃ pre t post, l = pre ++ t :: post ∧ P t = true ∧ ∀ u ∈ post, P u = false := by
  induction l with
  | nil => obtain ⟨a, ha, _⟩ := h; cases ha
  | cons x l ih =>
    by_cases hl : ∃ a ∈ l, P a = true
    · obtain ⟨pre, t, post, rfl, ht, hp⟩ := ih hl
      exact ⟨x :: pre, t, post, rfl, ht, hp⟩
    · obtain ⟨a, ha, hP⟩ := h
      have hx : a = x := by
        rcases List.mem_cons.mp ha with rfl | hm
        · rfl
        · exact absurd ⟨a, hm, hP⟩ hl
      subst hx
      exact ⟨[], a, l, rfl, hP, fun u hu => Bool.eq_false_iff.mpr fun hu' => hl ⟨u, hu, hu'⟩⟩

theorem encode_none {host : ByteOrder} {g : Gauge} {p : Param} :
    p.encode host g = none ↔ host = .BE ∧ p.xFloat g = true ∧ 4 < p.dataLen.toNat := by
  unfold Param.encode
  dsimp only
  by_cases hx : p.xFloat g = true
  · rw [if_pos hx]
    by_cases hh : host = .BE
    · rw [if_pos hh]
      by_cases hl : 4 < p.dataLen.toNat
      · simp [hx, hh, hl]
      · simp [hl]
    · simp [hh]
  · rw [if_neg hx]
    constructor
    · split
      · exact nofun
      · split <;> exact nofun
    · exact fun h => absurd h.2.1 hx

theorem reached_map (ps : List Param) :
    reached (ps.map Param.shape) = (ps.takeWhile checkLimits).map Param.toLayout := by
  unfold reached
  rw [List.takeWhile_map, List.map_map]
  rfl

theorem behind_map (ps : List Param) :
    behind (ps.map Param.shape) = (ps.dropWhile checkLimits).map Param.toLayout := by
  unfold behind
  rw [List.dropWhile_map, List.map_map]
  rfl

theorem dropped_map (ps : List Param) :
    dropped (ps.map Param.shape) = !(ps.dropWhile checkLimits).isEmpty := by
  unfold dropped
  rw [behind_map]
  cases ps.dropWhile checkLimits <;> rfl

theorem head_dropWhile (ps : List Param) : ∀ q ∈ (ps.dropWhile checkLimits).head?, checkLimits q = false := by
  intro q hq
  have h := List.head?_dropWhile_not checkLimits ps
  rw [hq] at h
  simpa using h

/-- the last parameter that covers a byte is among the first of two lists, if the others are empty -/
theorem split_done {done rest pre post : List Param} {t : Param}
    (h : done ++ rest = pre ++ t :: post) (ht : t ∉ rest) :
    ∃ mid, done = pre ++ t :: mid ∧ post = mid ++ rest := by
  rcases List.append_eq_append_iff.mp h with ⟨as, _, hr⟩ | ⟨bs, hd, hr⟩
  · exact absurd (by rw [hr]; simp) ht
  · cases bs with
    | nil => exact absurd (by rw [← List.nil_append rest, ← hr]; simp) ht
    | cons x bs =>
      obtain ⟨rfl, hp⟩ := List.cons.inj hr
      exact ⟨bs, hd, hp⟩

/-- **Enough**: in an orderly list every byte is the one of the last parameter. -/
theorem orderly_right {host : ByteOrder} {g : Gauge} {ps : List Param}
    (ho : Orderly host g (ps.map Param.shape)) (stack : Vector UInt8 65) (dev : Device) :
    ∃ dev', writeParamsBlock memoryBus host g stack ps dev = some (true, dev')
      ∧ Right host g ps dev.mem dev'.mem := by
  obtain ⟨hwhole, hempty, hlast, hkept⟩ := ho
  rw [reached_map, behind_map] at hlast
  rw [reached_map] at hwhole hkept
  rw [behind_map] at hempty
  rw [dropped_map] at hkept
  have hps : ps.takeWhile checkLimits ++ ps.dropWhile checkLimits = ps := List.takeWhile_append_dropWhile
  have hin : ∀ p ∈ ps.takeWhile checkLimits, checkLimits p = true := fun p hp => List.mem_takeWhile_imp hp
  have hrest := head_dropWhile ps
  revert hwhole hempty hlast hkept hin hrest
  generalize ps.takeWhile checkLimits = done, ps.dropWhile checkLimits = rest at hps
  subst hps
  intro hwhole hempty hlast hkept hin hrest
  have hdone : ∀ p ∈ done, checkLimits p = true ∧ p.encode host g ≠ none := fun p hp =>
    ⟨hin p hp, fun he => hwhole p.toLayout (List.mem_map_of_mem hp) (encode_none.mp he)⟩
  have hnot : ∀ p ∈ rest, ∀ b j, p.covers g b j = false := by
    intro p hp b j
    have hz := hempty p.toLayout (List.mem_map_of_mem hp)
    rw [Bool.eq_false_iff]
    intro hc
    have := covers_iff.mp hc
    omega
  obtain ⟨dev', hrun, hmem⟩ := written_left host g stack dev hdone hrest (by
    intro hr
    obtain ⟨l, hl, ht⟩ := hlast (by rw [hr]; rfl)
    rw [List.getLast?_map] at hl
    obtain ⟨p, hp, rfl⟩ := Option.map_eq_some_iff.mp hl
    exact ⟨p, hp, ht⟩)
  have hnone : ∀ p ∈ done, ∀ b j, p.covers g b j = false → (p.put (p.data host g) j).stored b = none := by
    intro p hp b j hc
    rw [put_stored (data_length (hdone p hp).2), hc, if_neg (fun h => nomatch h.1)]
  refine ⟨dev', hrun, fun pre t post hsplit b j hc hpost => ?_, fun b j hc => ?_⟩
  · obtain ⟨mid, hd, rfl⟩ := split_done hsplit fun hm => by rw [hnot t hm b j] at hc; cases hc
    have ht : t ∈ done := by
      rw [hd]
      simp
    obtain ⟨hstored, hsurv⟩ := hkept (pre.map Param.toLayout) t.toLayout (mid.map Param.toLayout)
      (by rw [hd, List.map_append]; rfl) b j hc (by
        intro u hu
        obtain ⟨q, hq, rfl⟩ := List.mem_map.mp hu
        exact hpost q (List.mem_append_left _ hq))
    refine ⟨t.data host g, data_eq (hdone t ht).2, ?_⟩
    have hlen := data_length (hdone t ht).2
    obtain ⟨_, hlo, hhi⟩ := covers_iff.mp hc
    have hx : (t.data host g)[32 * b.2.toNat + j.val - t.start]?
        = some (t.data host g)[32 * b.2.toNat + j.val - t.start] := List.getElem?_eq_getElem (by omega)
    have hput : (t.put (t.data host g) j).stored b
        = some (t.data host g)[32 * b.2.toNat + j.val - t.start] := by
      rw [put_stored hlen, if_pos ⟨hc, hstored⟩, hx]
    have hmid : ∀ p ∈ puts host g j mid, p.stored b = none := by
      intro p hp
      obtain ⟨q, hq, rfl⟩ := List.mem_map.mp hp
      exact hnone q (by rw [hd]; simp [hq]) b j (hpost q (List.mem_append_left _ hq))
    obtain ⟨o, _, hleft⟩ := OneLine.left_last (s := OneLine.run (startColumn stack dev j) (puts host g j pre))
      (!rest.isEmpty) hput hmid
    have hrun' : OneLine.run (startColumn stack dev j) (puts host g j done)
        = OneLine.run (OneLine.run (startColumn stack dev j) (puts host g j pre))
          (t.put (t.data host g) j :: puts host g j mid) := by
      rw [← OneLine.run_append, hd]
      unfold puts
      rw [List.map_append]
      rfl
    rw [hx, hmem b j, hrun', hleft, if_pos ((survives_iff host g _ j).mp hsurv)]
  · have hclear : OneLine.Clear b (dev.mem b j)
        (OneLine.run (startColumn stack dev j) (puts host g j done)) := by
      refine OneLine.clear_run (start_clear stack dev b j) fun p hp x hx => ?_
      obtain ⟨q, hq, rfl⟩ := List.mem_map.mp hp
      rw [hnone q hq b j (hc q (List.mem_append_left _ hq))] at hx
      cases hx
    rw [hmem b j]
    exact hclear.left _

/-! ## Not more than enough -/

/-- a word of which all bytes are the same -/
def fill (x : UInt8) : UInt32 := ofLe32 [x, x, x, x]

theorem put32_fill (big : Bool) (x : UInt8) : put32 big (fill x) = List.replicate 4 x := by
  have h : le32 (fill x) = [x, x, x, x] := le32_ofLe32 x x x x
  unfold put32
  rw [h]
  cases big <;> rfl

/-- a float is turned into bytes that are all zero, or all ones -/
theorem exists_float {x : UInt8} (hx : x = 0 ∨ x = 0xFF) :
    ∃ f : List UInt8, f.length = 4 ∧ ieeeFloatToX f = List.replicate 4 x := by
  rcases hx with rfl | rfl
  · exact ⟨[0, 0, 0, 0x7F], rfl, by decide⟩
  · exact ⟨[0xFF, 0xFF, 0xFF, 0xFE], rfl, by decide⟩

theorem put32_get32 (big : Bool) {l : List UInt8} (h : l.length = 4) : put32 big (get32 big l) = l :=
  ((get32_eq_iff h).mp rfl).symm

theorem reverseByteorder_length (f : List UInt8) (n : Nat) : (reverseByteorder f n).length = f.length := by
  unfold reverseByteorder
  rw [List.length_append, List.length_reverse, List.length_take, List.length_drop]
  omega

theorem reverseByteorder_twice {f : List UInt8} {n : Nat} (h : n ≤ f.length) :
    reverseByteorder (reverseByteorder f n) n = f := by
  have ht : (f.take n).reverse.length = n := by
    rw [List.length_reverse, List.length_take, Nat.min_eq_left h]
  unfold reverseByteorder
  rw [List.take_left' ht, List.drop_left' ht, List.reverse_reverse, List.take_append_drop]

theorem checkLimits_eq {p : Param} (hmin : p.min = p.val) (hmax : p.max = p.val) : checkLimits p = true := by
  have hf : floatGt p.val p.val = false := by
    unfold floatGt
    split
    · next x y hx hy =>
      rw [hx] at hy
      rw [Option.some.inj hy]
      simp
    · rfl
  unfold checkLimits
  rw [hmin, hmax]
  cases p.rawType <;> simp [hf]

/-- a parameter of the same shape of which all bytes are zero, or ones -/
theorem exists_const {host : ByteOrder} {g : Gauge} {p : Param} (hlim : checkLimits p = true)
    (henc : p.encode host g ≠ none) {x : UInt8} (hx : x = 0 ∨ x = 0xFF) :
    ∃ p' : Param, p'.shape = p.shape ∧ p'.encode host g = some (List.replicate (p.size g) x) := by
  have hlen := p.len_le
  -- only the value is left to choose
  let of (w : UInt32) : Param := { p with
    valS := List.replicate 32 x, val := w, min := w, max := w, behind := List.replicate 20 x
    valS_len := fun _ => by rw [List.length_replicate]; exact p.len_le, behind_len := rfl }
  have hshape (w : UInt32) : (of w).shape = p.shape := by
    unfold Param.shape
    rw [hlim, checkLimits_eq (p := of w) rfl rfl]
  by_cases hf : p.xFloat g = true
  · obtain ⟨f, hfl, hfx⟩ := exists_float hx
    have hsize : p.size g = 4 := by
      unfold Layout.size
      rw [if_pos hf]
    by_cases hh : host = .BE
    · have h4 : ¬ 4 < p.dataLen.toNat := fun h4 => henc (encode_none.mpr ⟨hh, hf, h4⟩)
      refine ⟨of (get32 true (reverseByteorder f p.dataLen.toNat)), hshape _, ?_⟩
      unfold Param.encode
      dsimp only
      rw [if_pos (show Layout.xFloat g (of _).toLayout = true from hf), if_pos hh, if_neg h4, hsize, ← hfx]
      show some (ieeeFloatToX (reverseByteorder (put32 (decide (host = .BE)) (get32 true _)) _)) = _
      rw [decide_eq_true hh, put32_get32 true (by rw [reverseByteorder_length, hfl]),
        reverseByteorder_twice (by omega)]
    · refine ⟨of (get32 false f), hshape _, ?_⟩
      unfold Param.encode
      dsimp only
      rw [if_pos (show Layout.xFloat g (of _).toLayout = true from hf), if_neg hh, hsize, ← hfx]
      show some (ieeeFloatToX (put32 (decide (host = .BE)) (get32 false _))) = _
      rw [decide_eq_false hh, put32_get32 false hfl]
  · refine ⟨of (fill x), hshape _, ?_⟩
    have hsize : p.size g = p.dataLen.toNat := by
      unfold Layout.size
      rw [if_neg hf]
    have hbytes : (of (fill x)).bytes host = List.replicate 32 x := by
      show put32 _ (fill x) ++ put32 _ (fill x) ++ put32 _ (fill x) ++ List.replicate 20 x = _
      rw [put32_fill, List.replicate_append_replicate, List.replicate_append_replicate,
        List.replicate_append_replicate]
    unfold Param.encode
    dsimp only
    rw [if_neg (show ¬ Layout.xFloat g (of _).toLayout = true from hf), hsize, hbytes]
    show (if p.rawType = .S then some ((List.replicate 32 x).take p.dataLen.toNat) else _) = _
    rw [List.take_replicate, Nat.min_eq_left hlen]
    split
    · rfl
    · split
      · rw [List.reverse_replicate]
      · rfl

theorem exists_consts {host : ByteOrder} {g : Gauge} (z : Layout → UInt8)
    (hz : ∀ l, z l = 0 ∨ z l = 0xFF) {ps : List Param}
    (h : ∀ p ∈ ps, checkLimits p = true ∧ p.encode host g ≠ none) :
    ∃ ps' : List Param, ps'.map Param.shape = ps.map Param.shape ∧
      ∀ p ∈ ps', checkLimits p = true
        ∧ p.encode host g = some (List.replicate (p.size g) (z p.toLayout)) := by
  induction ps with
  | nil => exact ⟨[], rfl, fun p hp => nomatch hp⟩
  | cons p ps ih =>
    obtain ⟨ps', hs, hp'⟩ := ih fun q hq => h q (List.mem_cons_of_mem _ hq)
    obtain ⟨hlim, henc⟩ := h p List.mem_cons_self
    obtain ⟨q, hq, hqe⟩ := exists_const hlim henc (hz p.toLayout)
    refine ⟨q :: ps', by rw [List.map_cons, List.map_cons, hs, hq], fun r hr => ?_⟩
    rcases List.mem_cons.mp hr with rfl | hr
    · have hl : r.toLayout = p.toLayout := congrArg Prod.fst hq
      have hc : checkLimits r = checkLimits p := congrArg Prod.snd hq
      exact ⟨hc.trans hlim, by rw [hqe, hl]⟩
    · exact hp' r hr

section
variable {host : ByteOrder} {g : Gauge}

/-- what a parameter of equal bytes stores -/
theorem const_stored {p : Param} {x v : UInt8} {b : Block} {j : Fin 32}
    (h : p.encode host g = some (List.replicate (p.size g) x))
    (hv : (p.put (p.data host g) j).stored b = some v) : v = x ∧ p.covers g b j = true := by
  have hd : p.data host g = List.replicate (p.size g) x := by
    unfold Param.data
    rw [h]
    rfl
  rw [put_stored (by rw [hd, List.length_replicate])] at hv
  split at hv
  · next hc =>
    rw [hd, List.getElem?_replicate] at hv
    split at hv
    · exact ⟨(Option.some.inj hv).symm, hc.1⟩
    · cases hv
  · cases hv

theorem const_covered {p : Param} {x : UInt8} {b : Block} {j : Fin 32}
    (h : p.encode host g = some (List.replicate (p.size g) x)) (hc : p.covers g b j = true)
    (hs : b = p.block ∨ p.twoblocks = true) : (p.put (p.data host g) j).stored b = some x := by
  have hd : p.data host g = List.replicate (p.size g) x := by
    unfold Param.data
    rw [h]
    rfl
  obtain ⟨_, hlo, hhi⟩ := covers_iff.mp hc
  rw [put_stored (by rw [hd, List.length_replicate]), if_pos ⟨hc, hs⟩, hd, List.getElem?_replicate,
    if_pos (by omega)]

theorem encode_ne {p : Param} {d : List UInt8} (h : p.encode host g = some d) : p.encode host g ≠ none := by
  rw [h]
  exact nofun

theorem const_right {p : Param} {x y : UInt8} {d : List UInt8} {k : Nat}
    (h : p.encode host g = some (List.replicate (p.size g) x)) (hd : p.encode host g = some d)
    (hk : d[k]? = some y) : y = x := by
  rw [h] at hd
  rw [← Option.some.inj hd, List.getElem?_replicate] at hk
  split at hk
  · exact (Option.some.inj hk).symm
  · cases hk

variable {done rest : List Param}

/-- every parameter that is reached has its bytes -/
theorem writes_whole (h : WritesAll host g ((done ++ rest).map Param.shape))
    (hin : ∀ p ∈ done, checkLimits p = true) : ∀ p ∈ done, p.encode host g ≠ none := by
  by_contra hex
  obtain ⟨p, hp⟩ : ∃ p, done.find? (fun p => (p.encode host g).isNone) = some p := by
    apply Option.isSome_iff_exists.mp
    rw [List.find?_isSome]
    by_contra hno
    exact hex fun p hp he => hno ⟨p, hp, by rw [he]; rfl⟩
  obtain ⟨he, pre, post, rfl, hpre⟩ := List.find?_eq_some_iff_append.mp hp
  have hrun := writeParamsBlock_overrun host g (Vector.replicate 65 0) ⟨fun _ _ => 0, 0, 0, fun _ => 0⟩
    (post ++ rest) (fun q hq => ⟨hin q (List.mem_append_left _ hq), fun h0 => by
      have := hpre q hq
      rw [h0] at this
      cases this⟩) (hin p (by simp)) (Option.isNone_iff_eq_none.mp he)
  obtain ⟨r, dev', hs, _⟩ := h _ rfl (Vector.replicate 65 0) ⟨fun _ _ => 0, 0, 0, fun _ => 0⟩
  rw [List.append_assoc] at hs
  change writeParamsBlock memoryBus host g _ (pre ++ p :: (post ++ rest)) _ = _ at hs
  rw [hrun] at hs
  cases hs

/-- a gauge with the memory `m` -/
def Memory.device (m : Memory) : Device := ⟨m, 0, 0, fun _ => 0⟩

/-- a parameter that is not reached has no bytes -/
theorem writes_empty (h : WritesAll host g ((done ++ rest).map Param.shape))
    (hin : ∀ p ∈ done, checkLimits p = true) (hrest : ∀ q ∈ rest.head?, checkLimits q = false) :
    ∀ p ∈ rest, p.size g = 0 := by
  intro u hu
  by_contra hsize
  let b := u.block
  let j : Fin 32 := ⟨u.pos, u.pos_lt⟩
  have huc : u.covers g b j = true := by
    have hs := u.start_eq
    refine covers_iff.mpr ⟨rfl, hs.le, ?_⟩
    show 32 * u.blkInd.toNat + u.pos < _
    omega
  obtain ⟨pre, t, post, rfl, ht, hpost⟩ := exists_last (P := fun p => p.covers g b j) ⟨u, hu, huc⟩
  have henc := writes_whole h hin
  have hdone : ∀ p ∈ done, checkLimits p = true ∧ p.encode host g ≠ none := fun p hp => ⟨hin p hp, henc p hp⟩
  -- the byte that `t` has for this place, whatever the memory and the other values are
  have hbyte : ∀ ps' : List Param, ps'.map Param.shape = done.map Param.shape → ∀ stack dev, ∃ r dev',
      writeParamsBlock memoryBus host g stack (ps' ++ (pre ++ t :: post)) dev = some (r, dev')
        ∧ (r = true → ∃ d, t.encode host g = some d
          ∧ d[32 * b.2.toNat + j.val - t.start]? = some (dev'.mem b j)) := by
    intro ps' hs stack dev
    obtain ⟨r, dev', hrun, hright⟩ := h (ps' ++ (pre ++ t :: post))
      (by rw [List.map_append, hs, ← List.map_append]) stack dev
    exact ⟨r, dev', hrun, fun hr => (hright hr).covered (ps' ++ pre) t post
      (List.append_assoc _ _ _).symm b j ht hpost⟩
  -- all that is stored, and the memory, is `x`
  have hconst : ∀ x : UInt8, x = 0 ∨ x = 0xFF → ∃ d, t.encode host g = some d
      ∧ d[32 * b.2.toNat + j.val - t.start]? = some x := by
    intro x hx
    obtain ⟨ps', hs, hp'⟩ := exists_consts (fun _ => x) (fun _ => hx) hdone
    obtain ⟨dev', hrun, hmem⟩ := written_left host g (Vector.replicate 65 0) (Memory.device fun _ _ => x)
      (fun p hp => ⟨(hp' p hp).1, encode_ne (hp' p hp).2⟩) hrest (fun he => by cases pre <;> cases he)
    obtain ⟨r, dev'', hrun', hright⟩ := hbyte ps' hs (Vector.replicate 65 0) (Memory.device fun _ _ => x)
    obtain ⟨rfl, rfl⟩ := Prod.mk.inj (Option.some.inj (hrun.symm.trans hrun'))
    have hclear : OneLine.Clear b x (OneLine.run (startColumn (Vector.replicate 65 0)
        (Memory.device fun _ _ => x) j) (puts host g j ps')) := by
      refine OneLine.clear_run (start_clear _ _ b j) fun p hp v hv => ?_
      obtain ⟨q, hq, rfl⟩ := List.mem_map.mp hp
      exact (const_stored (hp' q hq).2 hv).1
    have hx' := hright rfl
    rwa [hmem b j, hclear.left] at hx'
  obtain ⟨d, hd, h0⟩ := hconst 0 (.inl rfl)
  obtain ⟨d', hd', h1⟩ := hconst 0xFF (.inr rfl)
  rw [hd] at hd'
  rw [← Option.some.inj hd', h0] at h1
  exact absurd (Option.some.inj h1) (by decide)

/-- there is a last parameter, and it ends in its own block -/
theorem writes_last (h : WritesAll host g (done.map Param.shape))
    (hin : ∀ p ∈ done, checkLimits p = true) : ∃ p ∈ done.getLast?, p.twoblocks = false := by
  have h' : WritesAll host g ((done ++ []).map Param.shape) := by rwa [List.append_nil]
  have henc := writes_whole h' hin
  have hdone : ∀ p ∈ done, checkLimits p = true ∧ p.encode host g ≠ none := fun p hp => ⟨hin p hp, henc p hp⟩
  rcases List.eq_nil_or_concat' done with rfl | ⟨init, p, rfl⟩
  · -- what was on the stack is written
    exfalso
    obtain ⟨dev', hrun, hmem⟩ := writeParamsBlock_all host g (Vector.replicate 65 0xFF)
      (Memory.device fun _ _ => 0) hdone
    obtain ⟨r, dev'', hrun', hright⟩ := h [] rfl (Vector.replicate 65 0xFF) (Memory.device fun _ _ => 0)
    obtain ⟨rfl, rfl⟩ := Prod.mk.inj (Option.some.inj (hrun.symm.trans hrun'))
    have h0 : dev'.mem (0, 0) 0 = 0 := (hright rfl).others (0, 0) 0 fun p hp => nomatch hp
    have h1 : dev'.mem (0, 0) 0 = 0xFF := congrFun (hmem 0) (0, 0)
    rw [h0] at h1
    exact absurd h1 (by decide)
  · refine ⟨p, by rw [List.getLast?_concat]; rfl, ?_⟩
    rw [Bool.eq_false_iff]
    intro ht
    -- the last byte of the first block is one, that of the second is zero
    let z : Layout → UInt8 := fun l => if l.covers g p.block 31 then 0xFF else 0
    have hz : ∀ l, z l = 0 ∨ z l = 0xFF := fun l => by
      show (if _ then _ else _) = _ ∨ (if _ then _ else _) = _
      split
      · exact .inr rfl
      · exact .inl rfl
    let m : Memory := fun b j => if b = p.block ∧ j = 31 then 0xFF else 0
    obtain ⟨ps', hs, hp'⟩ := exists_consts z hz hdone
    obtain ⟨dev', hrun, hmem⟩ := writeParamsBlock_all host g (Vector.replicate 65 0) m.device
      fun q hq => ⟨(hp' q hq).1, encode_ne (hp' q hq).2⟩
    obtain ⟨r, dev'', hrun', hright⟩ := h ps' hs (Vector.replicate 65 0) m.device
    obtain ⟨rfl, rfl⟩ := Prod.mk.inj (Option.some.inj (hrun.symm.trans hrun'))
    have hR := hright rfl
    rw [List.map_append] at hs
    obtain ⟨init', last', rfl, _, hl⟩ := List.map_eq_append_iff.mp hs
    obtain ⟨p', rfl, hps⟩ := List.map_eq_singleton_iff.mp hl
    have hpl : p'.toLayout = p.toLayout := congrArg Prod.fst hps
    -- the memory has the second block where the first should be
    have hzero : dev'.mem p.block 31 = 0 := by
      have hj := congrFun (hmem 31) p.block
      rw [lastBlock_append, hpl, Function.update_self] at hj
      have hcur := run_cur host g 31 p' init' (startColumn (Vector.replicate 65 0) m.device 31)
      have hclear : OneLine.Clear p.next 0 (OneLine.run (startColumn (Vector.replicate 65 0) m.device 31)
          (puts host g 31 (init' ++ [p']))) := by
        have h0 : m.device.mem p.next 31 = 0 := if_neg fun hb => p.next_ne hb.1
        refine OneLine.clear_run (h0 ▸ start_clear _ _ p.next 31) fun q hq v hv => ?_
        obtain ⟨u, hu, rfl⟩ := List.mem_map.mp hq
        obtain ⟨rfl, hc⟩ := const_stored (hp' u hu).2 hv
        refine if_neg fun hc' => ?_
        obtain ⟨_, hlo, _⟩ := covers_iff.mp hc'
        obtain ⟨_, _, hhi⟩ := covers_iff.mp hc
        have hn := p.next_ind
        have hsz := u.size_le g
        change u.start ≤ 32 * p.blkInd.toNat + 31 at hlo
        change 32 * p.next.2.toNat + 31 < _ at hhi
        omega
      rw [hpl] at hcur
      have hends : p.ends = p.next := by
        unfold Layout.ends
        rw [if_pos ht]
      rw [hj]
      exact hclear.2 (hends ▸ hcur)
    by_cases hex : ∃ q ∈ init' ++ [p'], q.covers g p.block 31 = true
    · obtain ⟨pre, t, post, hsplit, htc, hpost⟩ := exists_last (P := fun q : Param => q.covers g p.block 31) hex
      obtain ⟨d, hd, hk⟩ := hR.covered pre t post hsplit p.block 31 htc hpost
      have ht' := hp' t (by rw [hsplit]; simp)
      have he := const_right ht'.2 hd hk
      rw [hzero, show z t.toLayout = 0xFF from if_pos htc] at he
      exact absurd he (by decide)
    · have he := hR.others p.block 31 fun q hq => Bool.eq_false_iff.mpr fun hc => hex ⟨q, hq, hc⟩
      rw [hzero, show m.device.mem p.block 31 = 0xFF from if_pos ⟨rfl, rfl⟩] at he
      exact absurd he (by decide)

/-- the last value of a byte is not lost -/
theorem writes_kept {pre post : List Param} {t : Param}
    (h : WritesAll host g (((pre ++ t :: post) ++ rest).map Param.shape))
    (hin : ∀ p ∈ pre ++ t :: post, checkLimits p = true) (hrest : ∀ q ∈ rest.head?, checkLimits q = false)
    {b : Block} {j : Fin 32} (ht : t.covers g b j = true) (hpost : ∀ u ∈ post, u.covers g b j = false) :
    (b = t.block ∨ t.twoblocks = true)
      ∧ Survives (!rest.isEmpty) b t.toLayout (post.map Param.toLayout) := by
  have henc := writes_whole h hin
  have hempty := writes_empty h hin hrest
  have hdone : ∀ p ∈ pre ++ t :: post, checkLimits p = true ∧ p.encode host g ≠ none :=
    fun p hp => ⟨hin p hp, henc p hp⟩
  -- `t` is ones, all else is zero
  obtain ⟨pre', hs1, hp1⟩ := exists_consts (fun _ => 0) (fun _ => .inl rfl) fun p hp =>
    hdone p (List.mem_append_left _ hp)
  obtain ⟨post', hs2, hp2⟩ := exists_consts (fun _ => 0) (fun _ => .inl rfl) fun p hp =>
    hdone p (List.mem_append_right _ (List.mem_cons_of_mem _ hp))
  obtain ⟨hlim, hte⟩ := hdone t (by simp)
  obtain ⟨t', hs3, ht'⟩ := exists_const hlim hte (.inr rfl : (0xFF : UInt8) = 0 ∨ (0xFF : UInt8) = 0xFF)
  have htl : t'.toLayout = t.toLayout := congrArg Prod.fst hs3
  rw [← htl] at ht'
  have hlim' : checkLimits t' = true := (congrArg Prod.snd hs3).trans hlim
  have hlay : post'.map Param.toLayout = post.map Param.toLayout := by
    have := congrArg (List.map Prod.fst) hs2
    rwa [List.map_map, List.map_map] at this
  have hpost' : ∀ u ∈ post', u.covers g b j = false := by
    intro u hu
    have hm : u.toLayout ∈ post.map Param.toLayout := hlay ▸ List.mem_map_of_mem hu
    obtain ⟨q, hq, e⟩ := List.mem_map.mp hm
    rw [← e]
    exact hpost q hq
  have hall : ∀ p ∈ pre' ++ t' :: post', checkLimits p = true ∧ p.encode host g ≠ none := by
    intro p hp
    rcases List.mem_append.mp hp with hp | hp
    · exact ⟨(hp1 p hp).1, encode_ne (hp1 p hp).2⟩
    · rcases List.mem_cons.mp hp with rfl | hp
      · exact ⟨hlim', encode_ne ht'⟩
      · exact ⟨(hp2 p hp).1, encode_ne (hp2 p hp).2⟩
  have hshape : (pre' ++ t' :: post').map Param.shape = (pre ++ t :: post).map Param.shape := by
    rw [List.map_append, List.map_cons, hs1, hs2, hs3, List.map_append, List.map_cons]
  obtain ⟨dev', hrun, hmem⟩ := written_left host g (Vector.replicate 65 0)
    (Memory.device fun _ _ => 0) hall hrest (by
      rintro rfl
      rw [List.append_nil, ← hshape] at h
      exact writes_last h fun p hp => (hall p hp).1)
  obtain ⟨r, dev'', hrun', hright⟩ := h ((pre' ++ t' :: post') ++ rest)
    (by rw [List.map_append, hshape, ← List.map_append]) (Vector.replicate 65 0) (Memory.device fun _ _ => 0)
  obtain ⟨rfl, rfl⟩ := Prod.mk.inj (Option.some.inj (hrun.symm.trans hrun'))
  obtain ⟨d, hd, hk⟩ := (hright rfl).covered pre' t' (post' ++ rest)
    (by rw [List.append_assoc]; rfl) b j (by rw [htl]; exact ht) (by
      intro u hu
      rcases List.mem_append.mp hu with hu | hu
      · exact hpost' u hu
      · rw [Bool.eq_false_iff]
        intro hc
        have h0 := hempty u hu
        have := covers_iff.mp hc
        omega)
  have hones : dev'.mem b j = 0xFF := const_right ht' hd hk
  rw [hmem b j] at hones
  have hclear : OneLine.Clear b 0 (OneLine.run (startColumn (Vector.replicate 65 0)
      (Memory.device fun _ _ => 0) j) (puts host g j pre')) := by
    refine OneLine.clear_run (start_clear _ _ b j) fun p hp v hv => ?_
    obtain ⟨q, hq, rfl⟩ := List.mem_map.mp hp
    exact (const_stored (hp1 q hq).2 hv).1
  have hnone : ∀ p ∈ puts host g j post', p.stored b = none := by
    intro p hp
    obtain ⟨q, hq, rfl⟩ := List.mem_map.mp hp
    rw [put_stored (data_length (encode_ne (hp2 q hq).2)), hpost' q hq, if_neg fun hc => nomatch hc.1]
  have hsplit : OneLine.run (startColumn (Vector.replicate 65 0) (Memory.device fun _ _ => 0) j)
      (puts host g j (pre' ++ t' :: post')) = OneLine.run (OneLine.run (startColumn (Vector.replicate 65 0)
        (Memory.device fun _ _ => 0) j) (puts host g j pre')) (t'.put (t'.data host g) j :: puts host g j post') := by
    rw [← OneLine.run_append]
    unfold puts
    rw [List.map_append]
    rfl
  rw [hsplit] at hones
  by_cases hst : b = t.block ∨ t.twoblocks = true
  · refine ⟨hst, ?_⟩
    have hput := const_covered ht' (by rw [htl]; exact ht) (by rw [htl]; exact hst)
    obtain ⟨o, ho, hleft⟩ := OneLine.left_last (s := OneLine.run (startColumn (Vector.replicate 65 0)
      (Memory.device fun _ _ => 0) j) (puts host g j pre')) (!rest.isEmpty) hput hnone
    rw [hleft, ho 0 hclear] at hones
    rw [← hlay, ← htl]
    refine (survives_iff host g (t'.data host g) j).mpr ?_
    by_contra hno
    rw [if_neg hno] at hones
    exact absurd hones (by decide)
  · exfalso
    have hno : (t'.put (t'.data host g) j).stored b = none := by
      rw [put_stored (data_length (encode_ne ht')), if_neg fun hc => hst (by rw [← htl]; exact hc.2)]
    have hend : OneLine.Clear b 0 (OneLine.run (OneLine.run (startColumn (Vector.replicate 65 0)
        (Memory.device fun _ _ => 0) j) (puts host g j pre')) (t'.put (t'.data host g) j :: puts host g j post')) := by
      refine OneLine.clear_run hclear fun p hp x hx => ?_
      rcases List.mem_cons.mp hp with rfl | hp
      · rw [hno] at hx
        cases hx
      · rw [hnone p hp] at hx
        cases hx
    rw [hend.left] at hones
    exact absurd hones (by decide)

end

/-- two bytes, the last of block 0 and the first of block 1 -/
def wide : Param where
  rawType := .U
  offset := 0x5200001F
  dataLen := 2
  len_le := by decide
  valS := []
  val := 0x1234
  min := 0
  max := 0xFFFF
  behind := List.replicate 20 0
  valS_len := nofun
  behind_len := rfl

end Bqtool
