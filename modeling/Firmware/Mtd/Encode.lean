import Firmware.Mtd.Nodes

/-!
# mtd: the jffs2 writer is faithful

* `Between`, `Inside`    the buffer between two blocks, and inside a block with the nodes `ns`;
* `put_node`             a node that fits is laid down, which may finish the block;
* `makeRoom_has`         the loop that looks for room ends, and keeps the nodes;
* `addNodes_run`         the content is cut into extents, one node each;
* `addFile_faithful`     what is found on the blocks of a file: one dirent, and extents with its
                         content.
-/

set_option linter.unusedVariables false

namespace Mtd
open Img Word CInt

variable {v : Jenv} {s : Jst}

/-! ## the buffer -/

/-- the block of a list of nodes -/
def Jenv.block (v : Jenv) (ns : List (List UInt8)) : List UInt8 := padTo v.E (laid v.big ns)

/-- between two blocks; the blocks of `done` are out -/
structure Between (v : Jenv) (s : Jst) (done : List (List (List UInt8))) : Prop where
  buf : s.buf.length = v.E
  out : s.out = done.map v.block
  fits : ∀ ns ∈ done, (laid v.big ns).length ≤ v.E
  ofs : s.ofs = 0

/-- inside a block with the nodes `ns` -/
structure Inside (v : Jenv) (s : Jst) (done : List (List (List UInt8))) (ns : List (List UInt8)) :
    Prop where
  buf : s.buf.length = v.E
  out : s.out = done.map v.block
  fits : ∀ ns ∈ done, (laid v.big ns).length ≤ v.E
  ofs : s.ofs = (laid v.big ns).length
  room : s.ofs < v.E
  data : s.buf.take s.ofs = laid v.big ns

/-- the numbers are left alone -/
structure SameNumbers (s s' : Jst) : Prop where
  lastIno : s'.lastIno = s.lastIno
  lastVersion : s'.lastVersion = s.lastVersion

theorem Inside.ofs_pos {done : List (List (List UInt8))} {ns : List (List UInt8)}
    (h : Inside v s done ns) : 12 ≤ s.ofs := by
  rw [h.ofs]
  unfold laid
  rw [List.length_append, cleanMarker_length]
  omega

theorem store_take (m d : List UInt8) (off : Nat) (h : off + d.length ≤ m.length) :
    ∃ m', store m off d = some m' ∧ m'.length = m.length ∧
      m'.take (off + d.length) = m.take off ++ d := by
  refine ⟨poke m off d, store_eq_some.mpr ⟨h, rfl⟩, poke_length m off d h, ?_⟩
  have hl : (m.take off ++ d).length = off + d.length := by
    rw [List.length_append, List.length_take]
    omega
  unfold poke
  rw [← List.append_assoc, List.take_append_of_le_length (by omega), List.take_of_length_le (by omega)]

/-- `pad(erasesize)` finishes a block -/
theorem pad_inside {done : List (List (List UInt8))} {ns : List (List UInt8)}
    (h : Inside v s done ns) :
    ∃ s', pad v v.E s = some s' ∧ Between v s' (done ++ [ns]) ∧ SameNumbers s s' := by
  have h0 := h.ofs_pos
  have hr := h.room
  have hmod : s.ofs % v.E = s.ofs := Nat.mod_eq_of_lt hr
  obtain ⟨buf, h1, h2, h3⟩ := store_take s.buf (List.replicate (v.E - s.ofs) 0xff) s.ofs
    (by rw [List.length_replicate, h.buf]; omega)
  have hE : s.ofs + (v.E - s.ofs) = v.E := by omega
  have hbuf : buf = v.block ns := by
    rw [List.length_replicate, hE, List.take_of_length_le (by rw [h2, h.buf]), h.data] at h3
    rw [h3, h.ofs]
    rfl
  refine ⟨{ s with buf := buf, ofs := 0, out := s.out ++ [buf] }, ?_, ⟨?_, ?_, ?_, rfl⟩, ⟨rfl, rfl⟩⟩
  · unfold pad
    rw [if_neg (by rw [hmod]; omega)]
    simp only [if_pos hr, hmod, h1, hE, Nat.mod_self, Option.bind_eq_bind, Option.bind_some, if_pos]
  · rw [h2, h.buf]
  · rw [h.out, hbuf, List.map_append]
    rfl
  · intro ns' hns
    rcases List.mem_append.mp hns with hns | hns
    · exact h.fits ns' hns
    · rw [List.mem_singleton.mp hns, ← h.ofs]
      omega

theorem prep_between {done : List (List (List UInt8))} (h : Between v s done) (hE : 12 < v.E) :
    ∃ s', prepEraseblock v s = some s' ∧ Inside v s' done [] ∧ s'.ofs = 12 ∧ SameNumbers s s' := by
  have hc := cleanMarker_length v.big
  obtain ⟨buf, h1, h2, h3⟩ := store_take s.buf (cleanMarker v.big) s.ofs
    (by rw [hc, h.buf, h.ofs]; omega)
  rw [h.ofs, List.take_zero, List.nil_append, hc] at h3
  refine ⟨{ s with buf := buf, ofs := s.ofs + (cleanMarker v.big).length }, ?_,
    ⟨?_, h.out, h.fits, ?_, ?_, ?_⟩, ?_, ⟨rfl, rfl⟩⟩
  · unfold prepEraseblock put
    rw [if_neg (by rw [h.ofs]; omega), if_neg (by rw [hc]; omega), h1]
    rfl
  · rw [h2, h.buf]
  · rw [laid_nil, h.ofs, Nat.zero_add]
  · show s.ofs + _ < _
    rw [h.ofs, hc]
    omega
  · show buf.take (s.ofs + _) = _
    rw [h.ofs, hc, h3, laid_nil]
  · show s.ofs + _ = _
    rw [h.ofs, hc]

theorem prep_inside {done : List (List (List UInt8))} {ns : List (List UInt8)}
    (h : Inside v s done ns) : prepEraseblock v s = some s := by
  have := h.ofs_pos
  unfold prepEraseblock
  rw [if_pos (by omega)]

/-! ## one node -/

/-- the nodes written so far, the buffer being inside a block -/
def Has (v : Jenv) (s : Jst) (nodes : List (List UInt8)) : Prop :=
  ∃ done ns, Inside v s done ns ∧ done.flatten ++ ns = nodes

/-- `pad(4)` behind a node: the block goes on, or it is full -/
theorem pad_node (s1 : Jst) {done : List (List (List UInt8))} {ns : List (List UInt8)}
    {nb : List UInt8} (h4 : v.E % 4 = 0) (hE : 12 < v.E) (hbuf : s1.buf.length = v.E)
    (hout : s1.out = done.map v.block) (hfits : ∀ ns ∈ done, (laid v.big ns).length ≤ v.E)
    (hofs : s1.ofs = (laid v.big ns).length + nb.length) (hle : s1.ofs ≤ v.E)
    (hdata : s1.buf.take s1.ofs = laid v.big ns ++ nb) :
    ∃ s2, pad v 4 s1 = some s2 ∧ SameNumbers s1 s2 ∧
      (Inside v s2 done (ns ++ [nb]) ∨
        Between v s2 (done ++ [ns ++ [nb]]) ∧ (laid v.big (ns ++ [nb])).length = v.E) := by
  have hmod := laid_mod v.big ns
  have hlen : (laid v.big (ns ++ [nb])).length
      = s1.ofs + (4 - nb.length % 4) % 4 := by
    rw [laid_snoc, List.length_append, padNode_length, hofs]
    omega
  have hlaid : laid v.big (ns ++ [nb]) = s1.buf.take s1.ofs
      ++ List.replicate ((4 - nb.length % 4) % 4) 0xff := by
    rw [laid_snoc, hdata, List.append_assoc]
    rfl
  have hfull : ∀ buf : List UInt8, buf.length = v.E →
      (laid v.big (ns ++ [nb])).length = v.E → buf.take v.E = laid v.big (ns ++ [nb]) →
      Between v { s1 with buf := buf, ofs := 0, out := s1.out ++ [buf] } (done ++ [ns ++ [nb]]) := by
    intro buf hb hl ht
    have hblk : buf = v.block (ns ++ [nb]) := by
      rw [List.take_of_length_le (by omega)] at ht
      unfold Jenv.block
      rw [padTo_of_length hl, ht]
    refine ⟨hb, ?_, ?_, rfl⟩
    · rw [hblk, hout, List.map_append]
      rfl
    · intro ns' hns
      rcases List.mem_append.mp hns with hns | hns
      · exact hfits ns' hns
      · rw [List.mem_singleton.mp hns]
        omega
  by_cases hlt : s1.ofs < v.E
  · by_cases hz : s1.ofs % 4 = 0
    · -- nothing to pad
      have hp : (4 - nb.length % 4) % 4 = 0 := by omega
      rw [hp] at hlen hlaid
      refine ⟨s1, ?_, ⟨rfl, rfl⟩, Or.inl ⟨hbuf, hout, hfits, hlen.symm, hlt, ?_⟩⟩
      · unfold pad
        rw [if_pos ⟨hz, hlt⟩]
      · rw [hlaid]
        exact (List.append_nil _).symm
    · have hp : (4 - nb.length % 4) % 4 = 4 - s1.ofs % 4 := by omega
      rw [hp] at hlen hlaid
      obtain ⟨buf, h1, h2, h3⟩ := store_take s1.buf (List.replicate (4 - s1.ofs % 4) 0xff) s1.ofs
        (by rw [List.length_replicate, hbuf]; omega)
      rw [List.length_replicate, ← hlaid] at h3
      have hpad : pad v 4 s1 = if (s1.ofs + (4 - s1.ofs % 4)) % v.E = 0 then
          some { s1 with buf := buf, ofs := (s1.ofs + (4 - s1.ofs % 4)) % v.E,
                         out := s1.out ++ [buf] }
          else some { s1 with buf := buf, ofs := (s1.ofs + (4 - s1.ofs % 4)) % v.E } := by
        unfold pad
        rw [if_neg (by omega)]
        simp only [if_pos hlt, h1, Option.bind_eq_bind, Option.bind_some]
      by_cases hend : s1.ofs + (4 - s1.ofs % 4) = v.E
      · rw [hend, Nat.mod_self, if_pos rfl] at hpad
        rw [hend] at h3 hlen
        exact ⟨_, hpad, ⟨rfl, rfl⟩, Or.inr ⟨hfull buf (by rw [h2, hbuf]) hlen h3, hlen⟩⟩
      · have hlt' : s1.ofs + (4 - s1.ofs % 4) < v.E := by omega
        rw [Nat.mod_eq_of_lt hlt', if_neg (by omega)] at hpad
        exact ⟨_, hpad, ⟨rfl, rfl⟩, Or.inl ⟨by rw [← hbuf, ← h2], hout, hfits, hlen.symm, hlt', h3⟩⟩
  · -- the node ends with the block
    have hend : s1.ofs = v.E := by omega
    have hp : (4 - nb.length % 4) % 4 = 0 := by omega
    rw [hp, hend] at hlen hlaid
    refine ⟨{ s1 with ofs := 0, out := s1.out ++ [s1.buf] }, ?_, ⟨rfl, rfl⟩,
      Or.inr ⟨hfull s1.buf hbuf hlen ?_, hlen⟩⟩
    · unfold pad
      rw [if_neg (by omega)]
      simp only [hend, Nat.lt_irrefl, if_false, Nat.mod_self, Option.bind_eq_bind,
        Option.bind_some, if_pos]
    · rw [hlaid]
      exact (List.append_nil _).symm

/-- a node that fits, and the padding behind it -/
theorem put_node {done : List (List (List UInt8))} {ns : List (List UInt8)} {nb : List UInt8}
    (h4 : v.E % 4 = 0) (hE : 12 < v.E) (h : Inside v s done ns)
    (hfit : s.ofs + nb.length ≤ v.E) :
    ∃ s1 s2, put s nb = some s1 ∧ pad v 4 s1 = some s2 ∧ SameNumbers s s2 ∧
      (Inside v s2 done (ns ++ [nb]) ∨
        Between v s2 (done ++ [ns ++ [nb]]) ∧ (laid v.big (ns ++ [nb])).length = v.E) := by
  obtain ⟨buf, h1, h2, h3⟩ := store_take s.buf nb s.ofs (by rw [h.buf]; exact hfit)
  have hofs : s.ofs + nb.length = (laid v.big ns).length + nb.length := by rw [h.ofs]
  obtain ⟨s2, h5, h6, h7⟩ := pad_node { s with buf := buf, ofs := s.ofs + nb.length } h4 hE
    (h2.trans h.buf) h.out h.fits hofs hfit (h3.trans (by rw [h.data]))
  refine ⟨_, s2, ?_, h5, ⟨h6.lastIno, h6.lastVersion⟩, h7⟩
  unfold put
  rw [h1]
  rfl

/-- and the marker of the next block, where that is needed -/
theorem prep_node {done : List (List (List UInt8))} {ns : List (List UInt8)} (hE : 12 < v.E)
    (h : Inside v s done ns ∨ Between v s (done ++ [ns]) ∧ (laid v.big ns).length = v.E) :
    ∃ s', prepEraseblock v s = some s' ∧ SameNumbers s s' ∧ Has v s' (done.flatten ++ ns) := by
  rcases h with h | ⟨h, -⟩
  · exact ⟨s, prep_inside h, ⟨rfl, rfl⟩, done, ns, h, rfl⟩
  · obtain ⟨s', h1, h2, -, h3⟩ := prep_between h hE
    refine ⟨s', h1, h3, done ++ [ns], [], h2, ?_⟩
    rw [List.flatten_append, List.flatten_singleton, List.append_nil]

theorem addData_put {l : List UInt8} (h : s.ofs + l.length ≤ v.E) : addData v l s = put s l := by
  unfold addData
  rw [if_neg (by omega)]
  rfl

theorem put_append {a b : List UInt8} (h : s.ofs + (a ++ b).length ≤ s.buf.length) :
    ∃ s1, put s a = some s1 ∧ s1.ofs = s.ofs + a.length ∧ put s1 b = put s (a ++ b) := by
  rw [List.length_append] at h
  have hl : (s.buf.take s.ofs ++ a).length = s.ofs + a.length := by
    rw [List.length_append, List.length_take]
    omega
  have h1 : store s.buf s.ofs a = some (poke s.buf s.ofs a) := store_eq_some.mpr ⟨by omega, rfl⟩
  have h2 : poke (poke s.buf s.ofs a) (s.ofs + a.length) b = poke s.buf s.ofs (a ++ b) := by
    have ht : (poke s.buf s.ofs a).take (s.ofs + a.length) = s.buf.take s.ofs ++ a := by
      unfold poke
      rw [← List.append_assoc, ← hl]
      exact List.take_left
    have hd := drop_poke s.buf s.ofs (s.ofs + a.length + b.length) a (by omega) (by omega)
    show (poke s.buf s.ofs a).take _ ++ (b ++ (poke s.buf s.ofs a).drop _) = _
    rw [ht, hd]
    unfold poke
    rw [List.length_append, List.append_assoc, List.append_assoc, Nat.add_assoc]
  have h3 : store (poke s.buf s.ofs a) (s.ofs + a.length) b = store s.buf s.ofs (a ++ b) := by
    rw [store_eq_some.mpr ⟨?_, rfl⟩, store_eq_some.mpr ⟨?_, rfl⟩, h2]
    · rw [List.length_append]
      omega
    · rw [poke_length _ _ _ (by omega)]
      omega
  refine ⟨{ s with buf := poke s.buf s.ofs a, ofs := s.ofs + a.length }, ?_, rfl, ?_⟩
  · unfold put
    rw [h1]
    rfl
  · unfold put
    simp only [h3]
    rw [List.length_append, ← Nat.add_assoc]

/-! ## the content -/

/-- the inner loop finds room, in a fresh block if need be -/
theorem makeRoom_has (hE : 208 < v.E) {nodes : List (List UInt8)} (h : Has v s nodes) :
    ∃ s', makeRoom v s = some s' ∧ SameNumbers s s' ∧ Has v s' nodes ∧ 128 < rbytes v s' - inodeLen ∧
      rbytes v s' = v.E - s'.ofs ∧ s'.ofs < v.E := by
  obtain ⟨done, ns, hi, hn⟩ := h
  have hr := hi.room
  have hrb : rbytes v s = v.E - s.ofs := by
    unfold rbytes
    rw [Nat.mod_eq_of_lt hr]
  unfold makeRoom
  by_cases hroom : (rbytes v s : Int) - inodeLen > 128
  · rw [if_pos hroom]
    exact ⟨s, rfl, ⟨rfl, rfl⟩, ⟨done, ns, hi, hn⟩, by omega, hrb, hr⟩
  · obtain ⟨s1, h1, h2, h3⟩ := pad_inside hi
    obtain ⟨s2, h4, h5, h6, h7⟩ := prep_between h2 (by omega)
    have hrb2 : rbytes v s2 = v.E - s2.ofs := by
      unfold rbytes
      rw [Nat.mod_eq_of_lt h5.room]
    have hroom2 : (rbytes v s2 : Int) - inodeLen > 128 := by
      rw [hrb2, h6]
      unfold inodeLen
      omega
    rw [if_neg hroom]
    refine ⟨s2, ?_, ⟨h7.lastIno.trans h3.lastIno, h7.lastVersion.trans h3.lastVersion⟩,
      ⟨done ++ [ns], [], h5, ?_⟩, by omega, hrb2, h5.room⟩
    · simp only [h1, h4, Option.bind_eq_bind, Option.bind_some, if_pos hroom2]
    · rw [List.flatten_append, List.flatten_singleton, List.append_nil, hn]

/-- the nodes of the pieces `chs`, from a version and an offset on -/
def inodeNodes (big : Bool) (st : Stat) (ino : UInt32) : Int → Int → List (List UInt8) →
    List (List UInt8)
  | _, _, [] => []
  | ver, off, ch :: chs => (inodeHdr big st ino (word ver) (word off) ch ++ ch) ::
      inodeNodes big st ino (ver + 1) (off + ch.length) chs

/-- the body of the loop: header, data, padding, the marker of the next block -/
theorem node_step (h4 : v.E % 4 = 0) (hE : 208 < v.E) {nodes : List (List UInt8)}
    (h : Has v s nodes) (ri ch : List UInt8) (hri : ri.length = inodeLen)
    (hfit : s.ofs + inodeLen + ch.length ≤ v.E) :
    ∃ s1 s2 s3 s', addData v ri s = some s1 ∧ addData v ch s1 = some s2 ∧ pad v 4 s2 = some s3 ∧
      prepEraseblock v s3 = some s' ∧ SameNumbers s s' ∧ Has v s' (nodes ++ [ri ++ ch]) := by
  obtain ⟨done, ns, hi, hn⟩ := h
  have hl : (ri ++ ch).length = inodeLen + ch.length := by rw [List.length_append, hri]
  have hfit' : s.ofs + (ri ++ ch).length ≤ v.E := by omega
  obtain ⟨s1, h1, h2, h3⟩ := put_append (hi.buf ▸ hfit')
  obtain ⟨s2, s3, h5, h6, h7, h8⟩ := put_node h4 (by omega) hi hfit'
  obtain ⟨s4, h9, h10, h11⟩ := prep_node (by omega) h8
  refine ⟨s1, s2, s3, s4, ?_, ?_, h6, h9,
    ⟨h10.lastIno.trans h7.lastIno, h10.lastVersion.trans h7.lastVersion⟩, ?_⟩
  · rw [addData_put (by omega), h1]
  · rw [addData_put (by omega), h3, h5]
  · rw [← hn, List.append_assoc]
    exact h11

/-- **The loop over the content** ends, and the pieces make up the content. -/
theorem addNodes_run (h4 : v.E % 4 = 0) (hE : 208 < v.E) (st : Stat) (ino : UInt32) :
    ∀ (fuel : Nat) (content : List UInt8) (fOffset : Int) (s : Jst) (nodes : List (List UInt8)),
    content.length < fuel → Has v s nodes → 0 ≤ fOffset → fOffset + content.length ≤ 2147483647 →
    0 ≤ s.lastVersion → s.lastVersion + ((content.length + 128) / 129 : Nat) ≤ 2147483647 →
    ∃ s' chs, addNodes v st ino fuel content fOffset s = some s' ∧
      Has v s' (nodes ++ inodeNodes v.big st ino (s.lastVersion + 1) fOffset chs) ∧
      chs.flatten = content ∧ (∀ ch ∈ chs, ch.length ≤ 4096) ∧
      s.lastVersion + chs.length ≤ 2147483647 := by
  intro fuel
  induction fuel with
  | zero => intro content fOffset s nodes hf; omega
  | succ fuel ih =>
    intro content fOffset s nodes hf h h0 hoff hv hver
    obtain ⟨s1, h1, h2, h3, h5, h6, h7⟩ := makeRoom_has hE h
    generalize hlen : min (rbytes v s1 - inodeLen) 4096 = len
    by_cases hnil : content = []
    · refine ⟨s1, [], ?_, ?_, hnil.symm, fun _ hc => absurd hc (by simp), ?_⟩
      · unfold addNodes
        simp only [h1, hnil, List.take_nil, List.length_nil, Option.bind_eq_bind, Option.bind_some,
          if_pos]
      · rw [show inodeNodes v.big st ino (s.lastVersion + 1) fOffset [] = [] from rfl,
          List.append_nil]
        exact h3
      · rw [List.length_nil]
        omega
    · have hpos := List.length_pos_iff.mpr hnil
      have htl : (content.take len).length = min len content.length := List.length_take
      have hdl : (content.drop len).length = content.length - len := List.length_drop
      have hver1 : intAdd s1.lastVersion 1 = some (s.lastVersion + 1) := by
        rw [h2.lastVersion]
        exact intAdd_eq_some.mpr ⟨by unfold inRange; omega, rfl⟩
      have hoff1 : intAdd fOffset (content.take len).length
          = some (fOffset + (content.take len).length) :=
        intAdd_eq_some.mpr ⟨by unfold inRange; omega, rfl⟩
      have h3' : Has v { s1 with lastVersion := s.lastVersion + 1 } nodes := by
        obtain ⟨done, ns, hi, hn⟩ := h3
        exact ⟨done, ns, ⟨hi.buf, hi.out, hi.fits, hi.ofs, hi.room, hi.data⟩, hn⟩
      obtain ⟨t1, t2, t3, s2, e1, e2, e3, e4, h9, h10⟩ := node_step h4 hE h3' _ (content.take len)
        (inodeHdr_length v.big st ino (word (s.lastVersion + 1)) (word fOffset) (content.take len))
        (by show s1.ofs + _ + _ ≤ _; omega)
      have hv2 : s2.lastVersion = s.lastVersion + 1 := h9.lastVersion
      obtain ⟨s', chs, h11, h12, h13, h14, h15⟩ := ih (content.drop len)
        (fOffset + (content.take len).length) s2 _ (by omega) h10 (by omega) (by omega) (by omega)
        (by omega)
      refine ⟨s', content.take len :: chs, ?_, ?_, ?_, ?_, ?_⟩
      · unfold addNodes
        simp only [h1, hlen, Option.bind_eq_bind, Option.bind_some]
        rw [if_neg (by omega)]
        simp only [hver1, hoff1, e1, e2, e3, e4, h11, Option.bind_some]
      · rw [hv2, List.append_assoc] at h12
        exact h12
      · rw [List.flatten_cons, h13, List.take_append_drop]
      · intro ch hc
        rcases List.mem_cons.mp hc with rfl | hc
        · omega
        · exact h14 ch hc
      · rw [List.length_cons]
        omega

/-! ## a file -/

/-- the dirent stays in the first block -/
theorem addDirent_run (h4 : v.E % 4 = 0) (hE : 512 ≤ v.E) {done : List (List (List UInt8))}
    (h : Between v s done) {name : List UInt8} (hname : name.length ≤ 254)
    (hino : inRange (s.lastIno + 1) ∧ inRange (s.lastIno + 2)) (hver : inRange (s.lastVersion + 1))
    (type : UInt8) (parent : UInt32) :
    ∃ s', addDirent v name type parent s = some (word (s.lastIno + 1), s') ∧
      Has v s' (done.flatten ++
        [direntNode v.big name type parent (word (s.lastIno + 1)) (word s.lastVersion)]) ∧
      s'.lastVersion = s.lastVersion + 1 := by
  generalize hnb : direntNode v.big name type parent (word (s.lastIno + 1)) (word s.lastVersion) = nb
  have hlen : nb.length = direntLen + name.length := by
    rw [← hnb, direntNode_length]
  obtain ⟨s1, h1, h2, h3, h5⟩ := prep_between h (by omega)
  have h2' : Inside v { s1 with lastIno := s.lastIno + 2, lastVersion := s.lastVersion + 1 } done [] :=
    ⟨h2.buf, h2.out, h2.fits, h2.ofs, h2.room, h2.data⟩
  have hfit : s1.ofs + nb.length ≤ v.E := by
    rw [h3, hlen]
    unfold direntLen
    omega
  obtain ⟨s2, s3, h6, h7, h8, h9⟩ := put_node h4 (by omega) h2' hfit
  refine ⟨s3, ?_, ?_, h8.lastVersion⟩
  · have e1 : intAdd s1.lastIno 1 = some (s.lastIno + 1) := by
      rw [h5.lastIno]
      exact intAdd_eq_some.mpr ⟨hino.1, rfl⟩
    have e2 : intAdd (s.lastIno + 1) 1 = some (s.lastIno + 2) :=
      intAdd_eq_some.mpr ⟨by rw [Int.add_assoc]; exact hino.2, by omega⟩
    have e3 : intAdd s.lastVersion 1 = some (s.lastVersion + 1) := intAdd_eq_some.mpr ⟨hver, rfl⟩
    unfold put at h6
    simp only [Option.bind_eq_bind] at h6
    obtain ⟨buf, h10, h11⟩ := Option.bind_eq_some_iff.mp h6
    have hofs : s1.ofs + direntLen + name.length % 256 = s1.ofs + nb.length := by
      rw [hlen]
      omega
    unfold addDirent
    rw [if_neg (by rw [h.ofs]; omega)]
    simp only [h1, e1, e2, e3, h5.lastVersion, hnb, h10, hofs, Option.bind_eq_bind,
      Option.bind_some]
    rw [Option.some.inj h11, h7]
    rfl
  · rcases h9 with h9 | ⟨-, h9⟩
    · exact ⟨done, [nb], h9, rfl⟩
    · exfalso
      rw [laid_snoc, laid_nil, List.length_append, cleanMarker_length, padNode_length, hlen] at h9
      unfold direntLen at h9
      omega

theorem addFile_run (h4 : v.E % 4 = 0) (hE : 512 ≤ v.E) {done : List (List (List UInt8))}
    (h : Between v s done) {f : File} (hname : f.name.length ≤ 254) (parent : UInt32)
    (hino : inRange (s.lastIno + 1) ∧ inRange (s.lastIno + 2)) (hv : 0 ≤ s.lastVersion)
    (hcontent : f.content.length ≤ 2147483647)
    (hver : s.lastVersion + 1 + ((f.content.length + 128) / 129 : Nat) ≤ 2147483647) :
    ∃ s' chs, addFile v f parent s = some s' ∧
      Has v s' (done.flatten ++
        direntNode v.big f.name dtReg parent (word (s.lastIno + 1)) (word s.lastVersion) ::
        inodeNodes v.big f.stat (word (s.lastIno + 1)) (s.lastVersion + 2) 0 chs) ∧
      chs.flatten = f.content ∧ (∀ ch ∈ chs, ch.length ≤ 4096) ∧
      s.lastVersion + 1 + chs.length ≤ 2147483647 := by
  obtain ⟨s1, h1, h2, h3⟩ := addDirent_run h4 hE h hname hino (by unfold inRange; omega) dtReg parent
  obtain ⟨s2, chs, h5, h6, h7, h8, h9⟩ := addNodes_run h4 (by omega) f.stat (word (s.lastIno + 1))
    (f.content.length + 1) f.content 0 s1 _ (Nat.lt_succ_self _) h2 (Int.le_refl 0) (by omega)
    (by omega) (by omega)
  refine ⟨s2, chs, ?_, ?_, h7, h8, by omega⟩
  · unfold addFile
    simp only [h1, h5, Option.bind_eq_bind, Option.bind_some]
  · rw [h3, List.append_assoc, show s.lastVersion + 1 + 1 = s.lastVersion + 2 by omega] at h6
    exact h6

/-! ## what is found on the blocks -/

/-- the directory entries for a name: parent and inode -/
def entries (name : List UInt8) (nodes : List Node) : List (UInt32 × UInt32) :=
  nodes.filterMap fun
    | .dirent pino _ ino n => if n = name then some (pino, ino) else none
    | _ => none

/-- the pieces of an inode -/
def extents (ino : UInt32) (nodes : List Node) : List Extent :=
  nodes.filterMap fun
    | .inode i x => if i = ino then some x else none
    | _ => none

/-- the pieces cover the content: contiguous from 0 on, versions increasing -/
structure Covers (xs : List Extent) (content : List UInt8) : Prop where
  sizes : ∀ x ∈ xs, x.csize.toNat = x.data.length ∧ x.dsize.toNat = x.data.length
  offsets : ∀ pre x post, xs = pre ++ x :: post →
    x.offset.toNat = (pre.flatMap Extent.data).length
  versions : (xs.map fun x => x.version.toNat).Pairwise (· < ·)
  content : xs.flatMap Extent.data = content

/-- one entry for the file, and its content -/
def FileOn (f : File) (parent : UInt32) (nodes : List Node) : Prop :=
  ∃ ino, entries f.name nodes = [(parent, ino)] ∧ Covers (extents ino nodes) f.content

/-- `add_file` and `pad(erasesize)` emit blocks of nodes on which the file is found -/
def Faithful (v : Jenv) (f : File) (parent : UInt32) (s : Jst) : Prop :=
  ∃ (s' : Jst) (nss : List (List Node)),
    (addFile v f parent s).bind (pad v v.E) = some s' ∧
    (∀ blk ∈ s'.out, blk.length = v.E) ∧ s'.out.map (scanBlock v.big) = nss.map some ∧
    FileOn f parent nss.flatten

/-- the pieces `chs`, from a version and an offset on -/
def extentsOf : Int → Int → List (List UInt8) → List Extent
  | _, _, [] => []
  | ver, off, ch :: chs =>
    ⟨word ver, word off, UInt32.ofNat ch.length, UInt32.ofNat ch.length, ch⟩ ::
      extentsOf (ver + 1) (off + ch.length) chs

theorem parse_inodeNodes (big : Bool) (st : Stat) (ino : UInt32) :
    ∀ (chs : List (List UInt8)) (ver off : Int),
    (inodeNodes big st ino ver off chs).map (parseNode big)
      = ((extentsOf ver off chs).map (Node.inode ino)).map some
  | [], _, _ => rfl
  | ch :: chs, ver, off => by
    unfold inodeNodes extentsOf
    rw [List.map_cons, parse_inode, parse_inodeNodes big st ino chs]
    rfl

theorem inodeNodes_ok (big : Bool) (st : Stat) (ino : UInt32) :
    ∀ (chs : List (List UInt8)) (ver off : Int), (∀ ch ∈ chs, ch.length ≤ 4096) →
    ∀ nb ∈ inodeNodes big st ino ver off chs, NodeOk big nb
  | [], _, _, _, nb, hb => absurd hb (by simp [inodeNodes])
  | ch :: chs, ver, off, hc, nb, hb => by
    unfold inodeNodes at hb
    rcases List.mem_cons.mp hb with rfl | hb
    · have := hc ch List.mem_cons_self
      exact inodeNode_ok _ _ _ _ _ _ (by omega)
    · exact inodeNodes_ok big st ino chs _ _ (fun c h => hc c (List.mem_cons_of_mem ch h)) nb hb

theorem word_toNat {i : Int} (h0 : 0 ≤ i) (h : i ≤ 2147483647) : (word i).toNat = i.toNat := by
  unfold word
  rw [UInt32.toNat_ofNat']
  omega

theorem extentsOf_data : ∀ (chs : List (List UInt8)) (ver off : Int),
    (extentsOf ver off chs).flatMap Extent.data = chs.flatten
  | [], _, _ => rfl
  | ch :: chs, ver, off => by
    unfold extentsOf
    rw [List.flatMap_cons, extentsOf_data chs, List.flatten_cons]

theorem extentsOf_sizes : ∀ (chs : List (List UInt8)) (ver off : Int),
    (∀ ch ∈ chs, ch.length ≤ 4096) →
    ∀ x ∈ extentsOf ver off chs, x.csize.toNat = x.data.length ∧ x.dsize.toNat = x.data.length
  | [], _, _, _, x, hx => absurd hx (by simp [extentsOf])
  | ch :: chs, ver, off, hc, x, hx => by
    unfold extentsOf at hx
    rcases List.mem_cons.mp hx with rfl | hx
    · have hl : (UInt32.ofNat ch.length).toNat = ch.length := by
        rw [UInt32.toNat_ofNat']
        exact Nat.mod_eq_of_lt (by have := hc ch List.mem_cons_self; omega)
      exact ⟨hl, hl⟩
    · exact extentsOf_sizes chs _ _ (fun c h => hc c (List.mem_cons_of_mem ch h)) x hx

theorem extentsOf_offsets : ∀ (chs : List (List UInt8)) (ver off : Int), 0 ≤ off →
    off + chs.flatten.length ≤ 2147483647 → ∀ pre x post,
    extentsOf ver off chs = pre ++ x :: post →
    (x.offset.toNat : Int) = off + (pre.flatMap Extent.data).length
  | [], _, _, _, _, pre, x, post, h => absurd h.symm (by simp [extentsOf])
  | ch :: chs, ver, off, h0, hle, pre, x, post, h => by
    rw [List.flatten_cons, List.length_append] at hle
    unfold extentsOf at h
    cases pre with
    | nil =>
      rw [← (List.cons.inj h).1]
      show ((word off).toNat : Int) = off + 0
      rw [word_toNat h0 (by omega)]
      omega
    | cons y pre =>
      obtain ⟨h1, h2⟩ := List.cons.inj h
      have := extentsOf_offsets chs (ver + 1) (off + ch.length) (by omega) (by omega) pre x post h2
      rw [this, ← h1, List.flatMap_cons, List.length_append]
      show _ = off + ((ch.length + _ : Nat) : Int)
      omega

theorem extentsOf_version_ge : ∀ (chs : List (List UInt8)) (ver off : Int), 0 ≤ ver →
    ver + chs.length ≤ 2147483648 → ∀ x ∈ extentsOf ver off chs, ver ≤ x.version.toNat
  | [], _, _, _, _, x, hx => absurd hx (by simp [extentsOf])
  | ch :: chs, ver, off, h0, hle, x, hx => by
    rw [List.length_cons] at hle
    unfold extentsOf at hx
    rcases List.mem_cons.mp hx with rfl | hx
    · show ver ≤ ((word ver).toNat : Int)
      rw [word_toNat h0 (by omega)]
      omega
    · have := extentsOf_version_ge chs (ver + 1) (off + ch.length) (by omega) (by omega) x hx
      omega

theorem extentsOf_versions : ∀ (chs : List (List UInt8)) (ver off : Int), 0 ≤ ver →
    ver + chs.length ≤ 2147483648 →
    ((extentsOf ver off chs).map fun x => x.version.toNat).Pairwise (· < ·)
  | [], _, _, _, _ => List.Pairwise.nil
  | ch :: chs, ver, off, h0, hle => by
    rw [List.length_cons] at hle
    unfold extentsOf
    rw [List.map_cons]
    refine List.Pairwise.cons ?_ (extentsOf_versions chs _ _ (by omega) (by omega))
    intro n hn
    obtain ⟨x, hx, rfl⟩ := List.mem_map.mp hn
    have := extentsOf_version_ge chs (ver + 1) (off + ch.length) (by omega) (by omega) x hx
    show (word ver).toNat < _
    rw [word_toNat h0 (by omega)]
    omega

theorem extentsOf_covers {chs : List (List UInt8)} {ver : Int} (hc : ∀ ch ∈ chs, ch.length ≤ 4096)
    (h0 : 0 ≤ ver) (hver : ver + chs.length ≤ 2147483648)
    (hlen : chs.flatten.length ≤ 2147483647) : Covers (extentsOf ver 0 chs) chs.flatten := by
  refine ⟨extentsOf_sizes chs ver 0 hc, fun pre x post h => ?_, extentsOf_versions chs ver 0 h0 hver,
    extentsOf_data chs ver 0⟩
  have := extentsOf_offsets chs ver 0 (Int.le_refl 0) (by omega) pre x post h
  omega

/-- the nodes of the blocks, block by block -/
theorem parse_split (big : Bool) : ∀ (done : List (List (List UInt8))) (nodes : List Node),
    done.flatten.map (parseNode big) = nodes.map some →
    ∃ nss : List (List Node), nss.flatten = nodes ∧
      done.map (List.map (parseNode big)) = nss.map (List.map some)
  | [], nodes, h => ⟨[], (List.map_eq_nil_iff.mp h.symm).symm, rfl⟩
  | ns :: done, nodes, h => by
    rw [List.flatten_cons, List.map_append] at h
    obtain ⟨l1, l2, h1, h2, h3⟩ := List.map_eq_append_iff.mp h.symm
    obtain ⟨nss, h4, h5⟩ := parse_split big done l2 h3.symm
    refine ⟨l1 :: nss, by rw [List.flatten_cons, h4, h1], ?_⟩
    rw [List.map_cons, List.map_cons, h5, h2]

theorem scan_blocks : ∀ (done : List (List (List UInt8))) (nss : List (List Node)),
    (∀ ns ∈ done, ∀ nb ∈ ns, NodeOk v.big nb) →
    done.map (List.map (parseNode v.big)) = nss.map (List.map some) →
    (done.map v.block).map (scanBlock v.big) = nss.map some
  | [], nss, _, h => by
    rw [List.map_eq_nil_iff.mp h.symm]
    rfl
  | ns :: done, [], _, h => absurd h (by simp)
  | ns :: done, l :: nss, hok, h => by
    obtain ⟨h1, h2⟩ := List.cons.inj h
    have h3 : scanBlock v.big (v.block ns) = some l := scanBlock_laid (hok ns List.mem_cons_self) h1
    rw [List.map_cons, List.map_cons, List.map_cons, h3,
      scan_blocks done nss (fun n hn => hok n (List.mem_cons_of_mem ns hn)) h2]

/-- the blocks at the end -/
theorem Has.blocks {nodes : List (List UInt8)} (h : Has v s nodes) :
    ∃ (s' : Jst) (done : List (List (List UInt8))), pad v v.E s = some s' ∧
      s'.out = done.map v.block ∧ done.flatten = nodes ∧ ∀ blk ∈ s'.out, blk.length = v.E := by
  obtain ⟨done, ns, hi, hn⟩ := h
  obtain ⟨s', h1, h2, -⟩ := pad_inside hi
  refine ⟨s', done ++ [ns], h1, h2.out, ?_, fun blk hb => ?_⟩
  · rw [List.flatten_append, List.flatten_singleton, hn]
  · rw [h2.out] at hb
    obtain ⟨ns', hns, rfl⟩ := List.mem_map.mp hb
    exact padTo_length (h2.fits ns' hns)

theorem extents_map (ino : UInt32) (xs : List Extent) :
    extents ino (xs.map (Node.inode ino)) = xs := by
  unfold extents
  rw [List.filterMap_map]
  simp

theorem entries_map (name : List UInt8) (ino : UInt32) (xs : List Extent) :
    entries name (xs.map (Node.inode ino)) = [] := by
  unfold entries
  rw [List.filterMap_map]
  simp

theorem entries_dirent (name : List UInt8) (pino ver ino : UInt32) (nodes : List Node) :
    entries name (.dirent pino ver ino name :: nodes) = (pino, ino) :: entries name nodes := by
  unfold entries
  exact List.filterMap_cons_some (if_pos rfl)

/-- **The writer is faithful** as long as its `int` counters do not overflow. -/
theorem addFile_faithful (h4 : v.E % 4 = 0) (hE : 512 ≤ v.E) {f : File}
    (hname : 1 ≤ f.name.length ∧ f.name.length ≤ 254) (parent : UInt32)
    (hbuf : s.buf.length = v.E) (hofs : s.ofs = 0) (hout : s.out = [])
    (hino : -2147483648 ≤ s.lastIno ∧ s.lastIno + 2 ≤ 2147483647) (hv : 0 ≤ s.lastVersion)
    (hcontent : f.content.length ≤ 2147483647)
    (hver : s.lastVersion + 1 + ((f.content.length + 128) / 129 : Nat) ≤ 2147483647) :
    Faithful v f parent s := by
  have hb : Between v s [] := ⟨hbuf, hout, fun ns h => absurd h (by simp), hofs⟩
  obtain ⟨s1, chs, h1, h2, h3, h5, h6⟩ := addFile_run h4 hE hb hname.2 parent
    ⟨by unfold inRange; omega, by unfold inRange; omega⟩ hv hcontent hver
  rw [List.flatten_nil, List.nil_append] at h2
  obtain ⟨s2, done, h7, h8, h9, h10⟩ := h2.blocks
  generalize hino' : word (s.lastIno + 1) = ino at h9
  have hok : ∀ ns ∈ done, ∀ nb ∈ ns, NodeOk v.big nb := by
    intro ns hns nb hnb
    have hm : nb ∈ done.flatten := List.mem_flatten.mpr ⟨ns, hns, hnb⟩
    rw [h9] at hm
    rcases List.mem_cons.mp hm with rfl | hm
    · exact direntNode_ok _ _ _ _ _ _ (by omega)
    · exact inodeNodes_ok _ _ _ chs _ _ h5 nb hm
  have hparse : done.flatten.map (parseNode v.big)
      = (Node.dirent parent (word s.lastVersion) ino f.name ::
          (extentsOf (s.lastVersion + 2) 0 chs).map (Node.inode ino)).map some := by
    rw [h9, List.map_cons, parse_dirent _ _ _ _ _ _ (by omega), parse_inodeNodes]
    rfl
  obtain ⟨nss, h11, h12⟩ := parse_split v.big done _ hparse
  refine ⟨s2, nss, ?_, h10, ?_, ino, ?_, ?_⟩
  · rw [h1]
    exact h7
  · rw [h8, scan_blocks done nss hok h12]
  · rw [h11]
    rw [entries_dirent, entries_map]
  · have hx : extents ino nss.flatten = extentsOf (s.lastVersion + 2) 0 chs := by
      rw [h11]
      exact extents_map ino _
    rw [hx, ← h3]
    refine extentsOf_covers h5 (by omega) (by omega) ?_
    rw [h3]
    exact hcontent

/-! ## the offset of a piece is an `int` -/

theorem makeRoom_room {s' : Jst} (h : makeRoom v s = some s') :
    (rbytes v s' : Int) - inodeLen > 128 := by
  unfold makeRoom at h
  split at h
  · next hr => exact Option.some.inj h ▸ hr
  · obtain ⟨s1, -, h⟩ := Option.bind_eq_some_iff.mp h
    obtain ⟨s2, -, h⟩ := Option.bind_eq_some_iff.mp h
    split at h
    · next hr => exact Option.some.inj h ▸ hr
    · exact absurd h (by simp)

theorem addNodes_bound {st : Stat} {ino : UInt32} : ∀ (fuel : Nat) (content : List UInt8)
    (fOffset : Int) (s s' : Jst), addNodes v st ino fuel content fOffset s = some s' →
    fOffset ≤ 2147483647 → fOffset + content.length ≤ 2147483647
  | 0, _, _, _, _, h, _ => absurd h (by simp [addNodes])
  | fuel + 1, content, fOffset, s, s', h, h0 => by
    unfold addNodes at h
    simp only [Option.bind_eq_bind] at h
    obtain ⟨s1, h1, h⟩ := Option.bind_eq_some_iff.mp h
    have hroom := makeRoom_room h1
    generalize hlen : min (rbytes v s1 - inodeLen) 4096 = len at h
    have htl : (content.take len).length = min len content.length := List.length_take
    split at h
    · next hz =>
      omega
    · obtain ⟨ver, -, h⟩ := Option.bind_eq_some_iff.mp h
      obtain ⟨off, h2, h⟩ := Option.bind_eq_some_iff.mp h
      obtain ⟨s2, -, h⟩ := Option.bind_eq_some_iff.mp h
      obtain ⟨s3, -, h⟩ := Option.bind_eq_some_iff.mp h
      obtain ⟨s4, -, h⟩ := Option.bind_eq_some_iff.mp h
      obtain ⟨s5, -, h⟩ := Option.bind_eq_some_iff.mp h
      obtain ⟨h3, h5⟩ := intAdd_eq_some.mp h2
      have hle : off ≤ 2147483647 := by
        rw [h5]
        exact h3.2
      have := addNodes_bound fuel _ off s5 s' h hle
      rw [List.length_drop] at this
      omega

theorem addFile_bound {f : File} {parent : UInt32} {s' : Jst}
    (h : addFile v f parent s = some s') : f.content.length ≤ 2147483647 := by
  unfold addFile at h
  obtain ⟨⟨ino, s1⟩, -, h⟩ := Option.bind_eq_some_iff.mp h
  have := addNodes_bound _ _ 0 _ _ h (by omega)
  omega

def stat0 : Stat := ⟨0, 0, 0, 0, 0⟩

/-- the statics at the start of the program, with a buffer -/
def fresh (E : Nat) : Jst := ⟨0, 0, 0, List.replicate E 0, 0, []⟩

theorem addFile_faithful_small : Faithful ⟨512, false⟩ ⟨[97], [1, 2, 3], stat0⟩ 1 (fresh 512) := by
  apply addFile_faithful
  · rfl
  · exact Nat.le_refl 512
  · exact ⟨Nat.le_refl 1, by decide⟩
  · exact List.length_replicate
  · rfl
  · rfl
  · exact ⟨by decide, by decide⟩
  · exact Int.le_refl 0
  · decide
  · decide

theorem addFile_faithful_large :
    ¬ Faithful ⟨512, false⟩ ⟨[97], List.replicate 4294975488 0, stat0⟩ 1 (fresh 512) := by
  rintro ⟨s', nss, h, -⟩
  obtain ⟨s1, h1, -⟩ := Option.bind_eq_some_iff.mp h
  have := addFile_bound h1
  rw [show (File.content _) = List.replicate 4294975488 0 from rfl, List.length_replicate] at this
  omega

end Mtd
