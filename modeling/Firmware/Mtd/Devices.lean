import Firmware.Mtd.Place

/-!
# mtd: an image over several devices

When a block cannot be erased and a device is left, `mtd_write` goes on there.  `offset` and
`skip_bad_blocks` are carried over.

* `Spread`           what the devices should receive: each one what the earlier ones had no room for;
* `Fits`             there is room, and the devices in front are left because an erase fails;
* `Clean`            no device is left behind a bad block;
* `Poisoned`         after such a device the buffer is read behind its end, on every path;
* `continues_iff`    the image is continued without loss exactly on clean runs.
-/

set_option linter.unusedVariables false

namespace Mtd
open Img Word CInt Machine Blocks

variable {E : Nat}

/-- the blocks that take data: the good ones in front of the first that cannot be erased -/
def Chip.usable (c : Chip) (E : Nat) : List Nat := c.good 0 (c.stop E)

/-- the device is left through a failing erase (on NAND the end of the device is an error) -/
def Chip.HandsOver (c : Chip) (E : Nat) : Prop := c.stop E < c.reach E ∨ c.nand = false

/-- the blocks `B`, distributed -/
def Spread : List (Dev E) → List (Dev E) → List (List UInt8) → Prop
  | d :: ds, d' :: ds', B =>
    Wrote d d' ((d.chip.usable E).take B.length) (B.take (d.chip.usable E).length) ∧
      Spread ds ds' (B.drop (d.chip.usable E).length)
  | [], [], B => B = []
  | _, _, _ => False

/-- `n` blocks fit -/
def Fits : List (Dev E) → Nat → Prop
  | [], n => n = 0
  | d :: ds, n => n ≤ (d.chip.usable E).length ∨
    d.chip.HandsOver E ∧ Fits ds (n - (d.chip.usable E).length)

/-- no bad block in front of the place where a device is left -/
def Clean : List (Dev E) → Nat → Prop
  | [], _ => True
  | d :: ds, n => n ≤ (d.chip.usable E).length ∨
    (∀ b, b < d.chip.stop E → d.chip.isBad b = false) ∧ Clean ds (n - (d.chip.usable E).length)

/-! ## behind the buffer -/

/-- a full buffer, to be read from its end -/
structure Poisoned (s : St E) : Prop where
  buf : s.buf.length = E
  buflen : s.buflen = E
  offset : E ≤ s.offset
  skip : s.skip ≤ 0
  jffs2file : s.jffs2file = none

theorem Poisoned.load_none {s : St E} (h : Poisoned s) {n : Nat} (hn : 0 < n) :
    load s.buf s.offset n = none := by
  have := h.buf
  have := h.offset
  unfold load
  rw [if_neg (by omega)]

theorem Poisoned.eraseFailed {c : Cfg E} {s : St E} (h : Poisoned s) :
    (∃ s', Mtd.eraseFailed c s = .inl s' ∧ Poisoned s') ∨
      ∃ r, Mtd.eraseFailed c s = .inr r ∧ ∀ devs, r ≠ .ret devs := by
  unfold Mtd.eraseFailed
  cases s.next with
  | nil => exact Or.inr ⟨_, rfl, fun _ => by simp⟩
  | cons n ns =>
    by_cases hw : s.w < s.e
    · refine Or.inr ⟨.fault, ?_, fun _ => by simp⟩
      simp only
      rw [if_pos hw, h.load_none (by omega)]
    · refine Or.inl ⟨resume c s n ns, ?_, ⟨h.buf, h.buflen, h.offset, h.skip, h.jffs2file⟩⟩
      simp only
      rw [if_neg hw]

/-- no step gets out of such a state but by an error -/
theorem Poisoned.step {c : Cfg E} {s : St E} (h : Poisoned s) :
    (∃ s', Mtd.step c s = .inl s' ∧ Poisoned s') ∨
      ∃ r, Mtd.step c s = .inr r ∧ ∀ devs, r ≠ .ret devs := by
  have hE := s.dev.erasesize
  have hl := h.buflen
  have hs := h.skip
  cases hpc : s.pc with
  | fill =>
    refine Or.inl ⟨{ s with pc := .check }, ?_, ⟨h.buf, hl, h.offset, hs, h.jffs2file⟩⟩
    unfold Mtd.step fillStep
    rw [hpc]
    simp only
    rw [if_neg (by omega)]
  | check =>
    refine Or.inl ⟨{ s with pc := .erase }, ?_, ⟨h.buf, hl, h.offset, hs, h.jffs2file⟩⟩
    unfold Mtd.step checkStep blockStep
    rw [hpc]
    simp only
    rw [if_neg (by omega), if_neg (by omega), if_neg (by omega), h.jffs2file]
  | write =>
    refine Or.inr ⟨.fault, ?_, fun _ => by simp⟩
    unfold Mtd.step writeStep
    rw [hpc]
    simp only
    rw [h.load_none (by omega)]
  | erase =>
    have hw : Poisoned { s with pc := .write } := ⟨h.buf, hl, h.offset, hs, h.jffs2file⟩
    unfold Mtd.step eraseStep
    rw [hpc]
    simp only
    split
    · exact Or.inl ⟨_, rfl, hw⟩
    split
    · unfold eraseTurn
      split
      · exact Or.inr ⟨_, rfl, fun _ => by simp⟩
      · split
        · exact Or.inl ⟨_, rfl, ⟨h.buf, hl, h.offset, hs, h.jffs2file⟩⟩
        · exact Or.inr ⟨_, rfl, fun _ => by simp⟩
      · split
        · exact Or.inl ⟨_, rfl, ⟨h.buf, hl, h.offset, hs, h.jffs2file⟩⟩
        · exact h.eraseFailed
    · exact Or.inl ⟨_, rfl, hw⟩

theorem Poisoned.not_ret {c : Cfg E} {s : St E} (h : Poisoned s) (devs : List (Dev E)) :
    ¬ Ends (Mtd.step c) s (.ret devs) := by
  intro he
  have hq : ∀ devs', Outcome.ret devs ≠ Outcome.ret devs' := by
    refine Ends.invariant (P := Poisoned) (Q := fun r => ∀ devs', r ≠ .ret devs') ?_ ?_ he h
    · intro s s' hp hs
      rcases hp.step (c := c) with ⟨s1, h1, h2⟩ | ⟨r, h1, -⟩
      · rw [h1] at hs
        exact Sum.inl.inj hs ▸ h2
      · rw [h1] at hs
        exact absurd hs (by simp)
    · intro s r hp hs
      rcases hp.step (c := c) with ⟨s1, h1, -⟩ | ⟨r', h1, h2⟩
      · rw [h1] at hs
        exact absurd hs (by simp)
      · rw [h1] at hs
        exact Sum.inr.inj hs ▸ h2
  exact hq devs rfl

/-! ## leaving a device -/

theorem usable_length_clean {c : Chip} (h : ∀ b, b < c.stop E → c.isBad b = false) :
    (c.usable E).length = c.stop E := by
  have : c.usable E = List.range' 0 (c.stop E - 0) := by
    refine List.filter_eq_self.mpr fun b hb => ?_
    have := List.mem_range'_1.mp hb
    rw [h b (by omega)]
    rfl
  rw [this, List.length_range', Nat.sub_zero]

theorem usable_length_dirty {c : Chip} {b : Nat} (hb : b < c.stop E) (h : c.isBad b = true) :
    (c.usable E).length < c.stop E := by
  have : (c.usable E).length < (List.range' 0 (c.stop E - 0)).length := by
    refine List.length_filter_lt_length_iff_exists.mpr ⟨b, List.mem_range'_1.mpr (by omega), ?_⟩
    rw [h]
    simp
  rwa [List.length_range', Nat.sub_zero] at this

/-- in front of the block where the device is left the erase fails -/
theorem InErase.left_step {c : Cfg E} (hc : c.noErase = false) {s : St E}
    (h : InErase s (s.dev.chip.stop E)) (ho : s.dev.chip.HandsOver E) :
    step c s = eraseFailed c s := by
  rcases Nat.lt_or_ge (s.dev.chip.stop E) (s.dev.chip.reach E) with hlt | hge
  · obtain ⟨h1, h2⟩ := s.dev.chip.stop_fails E hlt
    exact h.stuck hc hlt h1 h2
  · have hn : s.dev.chip.nand = false := by
      rcases ho with ho | ho
      · omega
      · exact ho
    rw [Nat.le_antisymm (s.dev.chip.stop_le E) hge] at h
    exact h.end_nor hc hn

/-- with no bad block behind it, the next device starts afresh -/
theorem eraseFailed_clean {c : Cfg E} (hp : c.partOffset = 0) {s : St E} {b : Nat}
    (h : InErase s b) (hs : s.skipBadBlocks = 0) {n : Dev E} {ns : List (Dev E)}
    (hn : s.next = n :: ns) :
    eraseFailed c s = .inl (resume c s n ns) ∧ InFill (resume c s n ns) 0 ∧
      padBlocks E (resume c s n ns).pending = s.todo := by
  have hw := h.w
  refine ⟨?_, ⟨⟨?_, ?_, ?_, ?_, h.skip, h.offset⟩, rfl, h.buf, Nat.le_of_eq h.buflen⟩, ?_⟩
  · unfold eraseFailed
    rw [hn]
    simp only
    rw [if_neg (by omega)]
  · rw [Nat.zero_mul]
    rfl
  · show (0 : Int) = 0 - s.skipBadBlocks
    omega
  · rw [Nat.zero_mul]
    exact hp
  · show 0 ≤ s.skipBadBlocks ∧ s.skipBadBlocks ≤ _
    omega
  · show padBlocks E (s.buf.take s.buflen ++ s.img) = _
    rw [List.take_of_length_le (by rw [h.buf, h.buflen]), padBlocks_append s.dev.erasesize h.buf]
    rfl

/-- behind a bad block it is poisoned -/
theorem eraseFailed_dirty {c : Cfg E} {s : St E} {b : Nat} (h : InErase s b)
    (hj : s.jffs2file = none) (hs : (E : Int) ≤ s.skipBadBlocks) {n : Dev E} {ns : List (Dev E)}
    (hn : s.next = n :: ns) (hstep : step c s = eraseFailed c s) (devs : List (Dev E)) :
    ¬ Ends (step c) s (.ret devs) := by
  have hE := s.dev.erasesize
  have hw := h.w
  unfold eraseFailed at hstep
  rw [hn] at hstep
  simp only at hstep
  rw [if_pos (by omega)] at hstep
  intro he
  cases hl : load s.buf s.offset (s.e - s.w).toNat with
  | none =>
    rw [hl] at hstep
    exact absurd (he.unique (Ends.done hstep)) (by simp)
  | some data =>
    rw [hl] at hstep
    have he' := (ends_step hstep).mp he
    refine absurd he' (Poisoned.not_ret ?_ devs)
    refine ⟨h.buf, h.buflen, ?_, h.skip, hj⟩
    show E ≤ (s.e - s.w).toNat
    omega

/-! ## all devices -/

theorem spread_nil : ∀ ds : List (Dev E), Spread ds ds []
  | [] => rfl
  | d :: ds => by
    refine ⟨?_, ?_⟩
    · rw [List.take_nil, List.length_nil, List.take_zero]
      exact Wrote.refl d
    · rw [List.drop_nil]
      exact spread_nil ds

theorem Wrote.opened {c : Cfg E} {d d' : Dev E} {bs : List Nat} {B : List (List UInt8)}
    (h : Wrote (openDev c d) d' bs B) : Wrote d d' bs B := ⟨h.chip, h.data, h.rest, h.log⟩

/-- the blocks `B` go to the devices `ds` exactly when the run is clean -/
def Distributes (c : Cfg E) (s : St E) (ds : List (Dev E)) (B : List (List UInt8)) : Prop :=
  (Clean ds B.length → ∃ ds', Ends (step c) s (.ret (s.left ++ ds')) ∧ Spread ds ds' B) ∧
  (¬ Clean ds B.length → ∀ devs, ¬ Ends (step c) s (.ret devs))

/-- the device has room for the rest -/
theorem distributes_last {c : Cfg E} {s : St E} {d d' : Dev E} {ds : List (Dev E)}
    {B : List (List UInt8)} (hn : s.next = ds) (hr : s.replaced = false)
    (hle : B.length ≤ (d.chip.usable E).length)
    (hw : Wrote d d' ((d.chip.usable E).take B.length) B)
    (he : Ends (step c) s (finish c { s with dev := d' })) : Distributes c s (d :: ds) B := by
  refine ⟨fun _ => ⟨d' :: ds, ?_, ?_, ?_⟩, fun hcl => absurd (Or.inl hle) hcl⟩
  · have hfin : finish c { s with dev := d' } = .ret (s.left ++ d' :: s.next) := finish_plain hr
    rw [hfin, hn] at he
    exact he
  · rw [List.take_of_length_le hle]
    exact hw
  · rw [List.drop_eq_nil_of_le hle]
    exact spread_nil ds

/-- the device is left in front of a block that cannot be erased -/
theorem distributes_full {c : Cfg E} (hc : c.noErase = false) (hp : c.partOffset = 0)
    {s s' : St E} {d n : Dev E} {ns : List (Dev E)} {B : List (List UInt8)}
    (hd : s.dev = openDev c d) (hs : s.skipBadBlocks = 0) (hn : s.next = n :: ns)
    (hj : s.jffs2file = none) (hr : s.replaced = false)
    (hlt : (d.chip.usable E).length < B.length) (ho : d.chip.HandsOver E)
    (hl : Leads (step c) s s') (hf : Full s s' B 0 (d.chip.stop E))
    (hrest : InFill (resume c s' n ns) 0 →
      padBlocks E (resume c s' n ns).pending = B.drop (d.chip.usable E).length →
      Distributes c (resume c s' n ns) (n :: ns) (B.drop (d.chip.usable E).length)) :
    Distributes c s (d :: n :: ns) B := by
  have hchip : s.dev.chip = d.chip := by rw [hd]; rfl
  have hchip' : s'.dev.chip = d.chip := hf.wrote.chip.trans hchip
  have hstep : step c s' = eraseFailed c s' := by
    have hfront := hf.front
    rw [← hchip'] at hfront ho
    exact hfront.left_step hc ho
  have hbads : s'.skipBadBlocks
      = ((d.chip.stop E - (d.chip.usable E).length) * E : Nat) := by
    rw [hf.bads, hs, hchip, Nat.sub_zero, Int.zero_add]
    rfl
  have hnext : s'.next = n :: ns := hf.keeps.next.trans hn
  have hnot : ¬ B.length ≤ (d.chip.usable E).length := Nat.not_le_of_lt hlt
  by_cases hcl : ∀ b, b < d.chip.stop E → d.chip.isBad b = false
  · rw [usable_length_clean hcl, Nat.sub_self, Nat.zero_mul] at hbads
    obtain ⟨h1, h2, h3⟩ := eraseFailed_clean hp hf.front hbads hnext
    have htodo : s'.todo = B.drop (d.chip.usable E).length := by rw [hf.todo, hchip]; rfl
    obtain ⟨h4, h5⟩ := hrest h2 (h3.trans htodo)
    have hl' : Leads (step c) s (resume c s' n ns) := hl.trans (Leads.one (hstep.trans h1))
    rw [List.length_drop] at h4 h5
    constructor
    · rintro (hle | ⟨-, hcl'⟩)
      · exact absurd hle hnot
      obtain ⟨ds', h6, h7⟩ := h4 hcl'
      refine ⟨s'.dev :: ds', hl'.ends_iff.mpr ?_, ?_, h7⟩
      · have he : (resume c s' n ns).left ++ ds' = s.left ++ s'.dev :: ds' := by
          show (s'.left ++ [s'.dev]) ++ ds' = _
          rw [hf.keeps.left, List.append_assoc]
          rfl
        rw [← he]
        exact h6
      · rw [List.take_of_length_le (Nat.le_of_lt hlt)]
        have hw := hf.wrote
        rw [hd] at hw
        exact hw.opened
    · intro hcl' devs he
      exact h5 (fun h => hcl' (Or.inr ⟨hcl, h⟩)) devs (hl'.ends_iff.mp he)
  · refine ⟨fun h => absurd h ?_, fun _ devs he => ?_⟩
    · rintro (hle | ⟨h, -⟩)
      · exact hnot hle
      · exact hcl h
    · obtain ⟨b, hb⟩ := not_forall.mp hcl
      obtain ⟨hb1, hb2⟩ := Classical.not_imp.mp hb
      have hlt' := usable_length_dirty hb1 (by simpa using hb2)
      have hone := Nat.mul_le_mul_right E
        (show 1 ≤ d.chip.stop E - (d.chip.usable E).length by omega)
      exact eraseFailed_dirty hf.front (hf.keeps.jffs2file.trans hj) (by rw [hbads]; omega) hnext
        hstep devs (hl.ends_iff.mp he)

/-- the run on one device, up to the block where it is left -/
theorem device_comes {c : Cfg E} (hc : c.noErase = false) {d : Dev E} {s : St E} (h : InFill s 0)
    (hd : s.dev = openDev c d) (hj : s.jffs2file = none)
    (hw : ∀ b, d.chip.writeFails b = false) :
    ((padBlocks E s.pending).length ≤ (d.chip.usable E).length ∧ ∃ d',
      Wrote d d' ((d.chip.usable E).take (padBlocks E s.pending).length)
        (padBlocks E s.pending) ∧ Ends (step c) s (finish c { s with dev := d' })) ∨
    ((d.chip.usable E).length < (padBlocks E s.pending).length ∧ (d.chip.HandsOver E →
      ∃ s', Leads (step c) s s' ∧ Full s s' (padBlocks E s.pending) 0 (d.chip.stop E))) := by
  have hr : Ready s.dev.chip E (d.chip.stop E) := by
    rw [hd]
    exact ⟨d.chip.stop_le E, fun b hb hg => ⟨d.chip.stop_good E hb hg, hw b⟩⟩
  have hrun := fill_run hc (Nat.zero_le _) h hj hr
  unfold Comes at hrun
  rw [hd] at hrun
  rcases hrun with ⟨h1, d', h2, h3⟩ | ⟨h1, h2⟩
  · exact Or.inl ⟨h1, d', h2.opened, h3⟩
  · refine Or.inr ⟨h1, fun ho => ?_⟩
    rcases h2 with h2 | ⟨h2, h3, -⟩
    · exact h2
    · -- at the end of a NAND device nothing is handed over
      have h2' : d.chip.stop E = d.chip.reach E := h2
      have h3' : d.chip.nand = true := h3
      rcases ho with ho | ho
      · omega
      · rw [h3'] at ho
        exact absurd ho (by simp)

/-- **The devices one after the other.** -/
theorem devices_run {c : Cfg E} (hc : c.noErase = false) (hp : c.partOffset = 0) :
    ∀ (ds : List (Dev E)) (d : Dev E) (s : St E), InFill s 0 → s.dev = openDev c d →
    s.next = ds → s.jffs2file = none → s.replaced = false →
    (∀ x ∈ d :: ds, ∀ b, x.chip.writeFails b = false) →
    Fits (d :: ds) (padBlocks E s.pending).length →
    Distributes c s (d :: ds) (padBlocks E s.pending) := by
  intro ds
  induction ds with
  | nil =>
    intro d s h hd hn hj hr hw hfit
    rcases device_comes hc h hd hj (hw d List.mem_cons_self) with ⟨h1, d', h2, h3⟩ | ⟨h1, -⟩
    · exact distributes_last hn hr h1 h2 h3
    · rcases hfit with hle | ⟨-, hz⟩
      · exact absurd hle (Nat.not_le_of_lt h1)
      · exact absurd (Nat.le_of_sub_eq_zero hz) (Nat.not_le_of_lt h1)
  | cons n ns ih =>
    intro d s h hd hn hj hr hw hfit
    rcases device_comes hc h hd hj (hw d List.mem_cons_self) with ⟨h1, d', h2, h3⟩ | ⟨h1, h2⟩
    · exact distributes_last hn hr h1 h2 h3
    · rcases hfit with hle | ⟨ho, hfit⟩
      · exact absurd hle (Nat.not_le_of_lt h1)
      obtain ⟨s', h3, h4⟩ := h2 ho
      have hs : s.skipBadBlocks = 0 := by
        have := h.bads
        rw [Nat.zero_mul] at this
        omega
      refine distributes_full hc hp hd hs hn hj hr h1 ho h3 h4 fun h5 h6 => ?_
      have hrest := ih n (resume c s' n ns) h5 rfl rfl (h4.keeps.jffs2file.trans hj)
        (h4.keeps.replaced.trans hr) (fun x hx => hw x (List.mem_cons_of_mem d hx))
      rw [h6, List.length_drop] at hrest
      exact hrest hfit

/-- `mtd_write` returns, and every device holds what the earlier ones had no room for -/
def Continues (c : Cfg E) (d : Dev E) (ds : List (Dev E)) (buf : List UInt8) (buflen : Nat)
    (img : List UInt8) (jst : Jst) : Prop :=
  ∃ ds', Ends (step c) (start c d ds buf buflen img none jst) (.ret ds') ∧
    Spread (d :: ds) ds' (padBlocks E (buf.take buflen ++ img))

theorem distributes_start {c : Cfg E} (hc : c.noErase = false) (hp : c.partOffset = 0) (d : Dev E)
    (ds : List (Dev E)) (hw : ∀ x ∈ d :: ds, ∀ b, x.chip.writeFails b = false)
    {buf : List UInt8} {buflen : Nat} (hbuf : buf.length = E) (hlen : buflen ≤ E)
    (img : List UInt8) (jst : Jst)
    (hfit : Fits (d :: ds) (padBlocks E (buf.take buflen ++ img)).length) :
    Distributes c (start c d ds buf buflen img none jst) (d :: ds)
      (padBlocks E (buf.take buflen ++ img)) :=
  devices_run hc hp ds d _ (inFill_start hp d ds hbuf hlen img none jst) rfl rfl rfl rfl hw hfit

/-- **Several devices**: an image that fits is continued without loss if and only if no device is
left behind a bad block. -/
theorem continues_iff {c : Cfg E} (hc : c.noErase = false) (hp : c.partOffset = 0) (d : Dev E)
    (ds : List (Dev E)) (hw : ∀ x ∈ d :: ds, ∀ b, x.chip.writeFails b = false)
    {buf : List UInt8} {buflen : Nat} (hbuf : buf.length = E) (hlen : buflen ≤ E)
    (img : List UInt8) (jst : Jst)
    (hfit : Fits (d :: ds) (padBlocks E (buf.take buflen ++ img)).length) :
    Continues c d ds buf buflen img jst ↔
      Clean (d :: ds) (padBlocks E (buf.take buflen ++ img)).length := by
  obtain ⟨h1, h2⟩ := distributes_start hc hp d ds hw hbuf hlen img jst hfit
  constructor
  · rintro ⟨ds', he, -⟩
    by_contra hcl
    exact h2 hcl ds' he
  · intro hcl
    obtain ⟨ds', he, hs⟩ := h1 hcl
    exact ⟨ds', he, hs⟩

/-- two blocks, the second cannot be erased -/
def wornDev (bad : Nat → Bool) : Dev 4 :=
  smallDev ⟨2, true, bad, fun b => b == 1, fun _ => false⟩ (show 2 * 4 < 4294967296 by decide)

theorem continues_iff_worn :
    Continues (plainCfg 4) (wornDev fun _ => false) [holedDev] [1, 2, 3, 4] 4 [5, 6, 7, 8] jst0 := by
  refine (continues_iff rfl rfl _ _ ?_ (show [1, 2, 3, 4].length = 4 from rfl)
    (Nat.le_refl 4) [5, 6, 7, 8] jst0 ?_).mpr ?_
  · intro x hx b
    rcases List.mem_pair.mp hx with rfl | rfl <;> rfl
  · exact Or.inr ⟨Or.inl (by decide), Or.inl (by decide)⟩
  · exact Or.inr ⟨fun _ _ => rfl, Or.inl (by decide)⟩

/-- the first block is bad as well: the hand-over reads behind the buffer -/
theorem continues_behind_bad :
    Fits [wornDev fun b => b == 0, holedDev] (padBlocks 4 [1, 2, 3, 4]).length ∧
    ¬ Continues (plainCfg 4) (wornDev fun b => b == 0) [holedDev] [1, 2, 3, 4] 4 [] jst0 := by
  have hfit : Fits [wornDev fun b => b == 0, holedDev] (padBlocks 4 [1, 2, 3, 4]).length :=
    Or.inr ⟨Or.inl (by decide), Or.inl (by decide)⟩
  refine ⟨hfit, ?_⟩
  rintro ⟨ds', he, -⟩
  refine (distributes_start rfl rfl _ _ ?_ (show [1, 2, 3, 4].length = 4 from rfl)
    (Nat.le_refl 4) [] jst0 hfit).2 ?_ ds' he
  · intro x hx b
    rcases List.mem_pair.mp hx with rfl | rfl <;> rfl
  · rintro (h | ⟨h, -⟩)
    · exact absurd h (by decide)
    · exact absurd (h 0 (by decide)) (by decide)

end Mtd
