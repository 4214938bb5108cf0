import Firmware.Mtd.Jffs2

/-!
# mtd: reading jffs2 nodes back

A block of a jffs2 image is a clean marker, nodes at multiples of four, and `0xff` up to its end.

* `scanBlock`     the nodes of a block, found by stepping over `PAD(totlen)`;
* `laid`          a block in the making: the marker and the padded nodes;
* `scan_laid`     scanning finds what was laid down;
* `parse_dirent`, `parse_inode`   the nodes of `addDirent` and `addFile`, field by field.
-/

set_option linter.unusedVariables false

namespace Mtd
open Img Word CInt

/-! ## nodes -/

/-- a piece of a file -/
structure Extent where
  version : UInt32
  offset : UInt32
  csize : UInt32
  dsize : UInt32
  data : List UInt8
deriving DecidableEq

inductive Node where
  | dirent (pino version ino : UInt32) (name : List UInt8)
  | inode (ino : UInt32) (x : Extent)
  | other (nodetype : UInt16)
deriving DecidableEq

def parseNode (big : Bool) (nb : List UInt8) : Option Node := do
  let nodetype ← load16 big nb 2
  if nodetype = jffs2NodetypeDirent then
    let pino ← load32 big nb 12
    let version ← load32 big nb 16
    let ino ← load32 big nb 20
    let nsize ← load8 nb 28
    let name ← load nb direntLen nsize.toNat
    some (.dirent pino version ino name)
  else if nodetype = jffs2NodetypeInode then
    let ino ← load32 big nb 12
    let version ← load32 big nb 16
    let offset ← load32 big nb 44
    let csize ← load32 big nb 48
    let dsize ← load32 big nb 52
    some (.inode ino ⟨version, offset, csize, dsize, nb.drop inodeLen⟩)
  else some (.other nodetype)

/-- the nodes up to the `0xff` at the end of the block; a node has to lie in the block -/
def scan (big : Bool) : Nat → List UInt8 → Option (List Node)
  | 0, _ => none
  | fuel + 1, l =>
    if l.all (· == 0xff) then some []
    else do
      let magic ← load16 big l 0
      if magic ≠ jffs2MagicBitmask then none
      else
        let totlen ← load32 big l 4
        let nb ← load l 0 totlen.toNat
        let node ← parseNode big nb
        let rest ← scan big fuel (l.drop (pad4 totlen).toNat)
        some (node :: rest)

def scanBlock (big : Bool) (blk : List UInt8) : Option (List Node) :=
  if blk.take (cleanMarker big).length = cleanMarker big then
    scan big blk.length (blk.drop (cleanMarker big).length)
  else none

/-! ## fields -/

theorem load16_skip {big : Bool} {a m : List UInt8} {k n : Nat} (h : a.length = k) :
    load16 big (a ++ m) (n + k) = load16 big m n := by
  unfold load16
  rw [load_skip h]

theorem load8_skip {a m : List UInt8} {k n : Nat} (h : a.length = k) :
    load8 (a ++ m) (n + k) = load8 m n := by
  unfold load8
  rw [List.getElem?_append_right (by omega), h, Nat.add_sub_cancel]

theorem load16_put16 {big : Bool} {w : UInt16} {m : List UInt8} :
    load16 big (put16 big w ++ m) 0 = some w := by
  have hl : load (put16 big w ++ m) 0 2 = some (put16 big w) :=
    load_split (List.nil_append _).symm rfl (put16_length big w)
  have hw := w.toNat_lt
  unfold load16
  rw [hl, Option.map_some]
  congr 1
  apply UInt16.toNat_inj.mp
  cases big <;> simp only [put16, UInt16.toNat_ofNat'] <;> simp <;> omega

/-- every node begins like this -/
structure NodeOk (big : Bool) (nb : List UInt8) : Prop where
  magic : load16 big nb 0 = some jffs2MagicBitmask
  totlen : load32 big nb 4 = some (UInt32.ofNat nb.length)
  length : 12 ≤ nb.length ∧ nb.length < 2147483648

theorem nodeHdr_ok {big : Bool} {nodetype : UInt16} {n : Nat} {m : List UInt8}
    (hn : (nodeHdr big nodetype (UInt32.ofNat n) ++ m).length = n)
    (hlen : 12 ≤ n ∧ n < 2147483648) :
    NodeOk big (nodeHdr big nodetype (UInt32.ofNat n) ++ m) := by
  refine ⟨?_, ?_, by rw [hn]; exact hlen⟩
  · unfold nodeHdr
    rw [List.append_assoc, load16_put16]
  · rw [hn]
    unfold nodeHdr
    rw [List.append_assoc, List.append_assoc]
    exact (load32_skip (k := 2) (n := 2) (put16_length _ _)).trans
      ((load32_skip (k := 2) (n := 0) (put16_length _ _)).trans load32_head)

theorem nodetype_hdr {big : Bool} {nodetype : UInt16} {w : UInt32} {m : List UInt8} :
    load16 big (nodeHdr big nodetype w ++ m) 2 = some nodetype := by
  unfold nodeHdr
  rw [List.append_assoc, List.append_assoc]
  exact (load16_skip (k := 2) (n := 0) (put16_length _ _)).trans load16_put16

@[simp] theorem nodeHdr_length (big : Bool) (nodetype : UInt16) (w : UInt32) :
    (nodeHdr big nodetype w).length = 8 := by
  simp [nodeHdr]

theorem load32_nodeHdr {big : Bool} {t : UInt16} {w : UInt32} {m : List UInt8} {n : Nat} :
    load32 big (nodeHdr big t w ++ m) (n + 8) = load32 big m n := load32_skip (nodeHdr_length big t w)

/-! ## dirents -/

section
variable (big : Bool) (name : List UInt8) (type : UInt8) (parent ino version : UInt32)

theorem direntNode_length : (direntNode big name type parent ino version).length
    = direntLen + name.length := by
  simp [direntNode, direntHead, direntLen]
  omega

theorem direntNode_ok (h : name.length < 256) :
    NodeOk big (direntNode big name type parent ino version) := by
  have hl := direntNode_length big name type parent ino version
  unfold direntNode direntHead at hl ⊢
  rw [List.append_assoc] at hl ⊢
  exact nodeHdr_ok hl (by unfold direntLen; omega)

theorem direntNode_pino : load32 big (direntNode big name type parent ino version) 12 = some parent := by
  simp only [direntNode, direntHead, List.append_assoc, load32_nodeHdr, load32_put32, load32_head]

theorem direntNode_version :
    load32 big (direntNode big name type parent ino version) 16 = some version := by
  simp only [direntNode, direntHead, List.append_assoc, load32_nodeHdr, load32_put32, load32_head]

theorem direntNode_ino : load32 big (direntNode big name type parent ino version) 20 = some ino := by
  simp only [direntNode, direntHead, List.append_assoc, load32_nodeHdr, load32_put32, load32_head]

theorem parse_dirent (h : name.length < 256) :
    parseNode big (direntNode big name type parent ino version)
      = some (.dirent parent version ino name) := by
  have ht : load16 big (direntNode big name type parent ino version) 2
      = some jffs2NodetypeDirent := by
    simp only [direntNode, direntHead, List.append_assoc, nodetype_hdr]
  have hd : (direntHead big name type parent ino version).length = 32 := by
    simp [direntHead]
  have h4 : load8 (direntNode big name type parent ino version) 28
      = some (UInt8.ofNat name.length) := by
    simp only [direntNode, direntHead, List.append_assoc]
    rw [load8_skip (n := 20) (nodeHdr_length _ _ _)]
    iterate 5 rw [load8_skip (k := 4) (put32_length _ _)]
    rfl
  have h5 : load (direntNode big name type parent ino version) direntLen
      (UInt8.ofNat name.length).toNat = some name := by
    have hn : (UInt8.ofNat name.length).toNat = name.length := by
      rw [UInt8.toNat_ofNat']
      exact Nat.mod_eq_of_lt h
    have hm : direntNode big name type parent ino version
        = (direntHead big name type parent ino version ++
            (put32 big (crc32 0 (direntHead big name type parent ino version)) ++
              put32 big (crc32 0 name))) ++ (name ++ []) := by
      simp only [direntNode, List.append_assoc, List.append_nil]
    rw [hn]
    exact load_split hm (by simp [hd, direntLen]) rfl
  unfold parseNode
  simp only [ht, direntNode_pino, direntNode_version, direntNode_ino, h4, h5, Option.bind_eq_bind,
    Option.bind_some, if_pos]

end

/-! ## inodes -/

section
variable (big : Bool) (st : Stat) (ino version offset : UInt32) (data : List UInt8)

theorem inodeHdr_length : (inodeHdr big st ino version offset data).length = inodeLen := by
  simp [inodeHdr, inodeHead, inodeLen]

theorem inodeNode_ok (h : data.length < 65536) :
    NodeOk big (inodeHdr big st ino version offset data ++ data) := by
  have hl : (inodeHdr big st ino version offset data ++ data).length = inodeLen + data.length := by
    rw [List.length_append, inodeHdr_length]
  unfold inodeHdr inodeHead at hl ⊢
  simp only [List.append_assoc] at hl ⊢
  exact nodeHdr_ok hl (by unfold inodeLen; omega)

theorem parse_inode : parseNode big (inodeHdr big st ino version offset data ++ data)
    = some (.inode ino ⟨version, offset, UInt32.ofNat data.length, UInt32.ofNat data.length,
        data⟩) := by
  have ht : load16 big (inodeHdr big st ino version offset data ++ data) 2
      = some jffs2NodetypeInode := by
    simp only [inodeHdr, inodeHead, List.append_assoc, nodetype_hdr]
  have h1 : load32 big (inodeHdr big st ino version offset data ++ data) 12 = some ino := by
    simp only [inodeHdr, inodeHead, List.append_assoc, load32_nodeHdr, load32_put32, load32_head]
  have h2 : load32 big (inodeHdr big st ino version offset data ++ data) 16 = some version := by
    simp only [inodeHdr, inodeHead, List.append_assoc, load32_nodeHdr, load32_put32, load32_head]
  have h3 : load32 big (inodeHdr big st ino version offset data ++ data) 44 = some offset := by
    simp only [inodeHdr, inodeHead, List.append_assoc, load32_nodeHdr, load32_put32, load32_put16,
      load32_head]
  have h4 : load32 big (inodeHdr big st ino version offset data ++ data) 48
      = some (UInt32.ofNat data.length) := by
    simp only [inodeHdr, inodeHead, List.append_assoc, load32_nodeHdr, load32_put32, load32_put16,
      load32_head]
  have h5 : load32 big (inodeHdr big st ino version offset data ++ data) 52
      = some (UInt32.ofNat data.length) := by
    simp only [inodeHdr, inodeHead, List.append_assoc, load32_nodeHdr, load32_put32, load32_put16,
      load32_head]
  have h6 : (inodeHdr big st ino version offset data ++ data).drop inodeLen = data :=
    List.drop_left' (inodeHdr_length big st ino version offset data)
  have hne : jffs2NodetypeInode ≠ jffs2NodetypeDirent := by decide
  unfold parseNode
  simp only [ht, h1, h2, h3, h4, h5, h6, Option.bind_eq_bind, Option.bind_some, if_neg hne, if_pos]

end

/-! ## blocks -/

/-- a node and the padding behind it -/
def padNode (nb : List UInt8) : List UInt8 :=
  nb ++ List.replicate ((4 - nb.length % 4) % 4) 0xff

/-- a block in the making -/
def laid (big : Bool) (ns : List (List UInt8)) : List UInt8 := cleanMarker big ++ ns.flatMap padNode

theorem cleanMarker_length (big : Bool) : (cleanMarker big).length = 12 := by
  cases big <;> rfl

theorem padNode_length (nb : List UInt8) : (padNode nb).length = (nb.length + 3) / 4 * 4 := by
  unfold padNode
  rw [List.length_append, List.length_replicate]
  omega

theorem laid_nil (big : Bool) : laid big [] = cleanMarker big := List.append_nil _

theorem laid_snoc (big : Bool) (ns : List (List UInt8)) (nb : List UInt8) :
    laid big (ns ++ [nb]) = laid big ns ++ padNode nb := by
  unfold laid
  rw [List.flatMap_append, List.append_assoc, List.flatMap_singleton]

theorem laid_mod (big : Bool) (ns : List (List UInt8)) : (laid big ns).length % 4 = 0 := by
  unfold laid
  rw [List.length_append, cleanMarker_length]
  induction ns with
  | nil => rfl
  | cons nb ns ih =>
    rw [List.flatMap_cons, List.length_append, padNode_length]
    omega

theorem and_mask (x : Nat) (h : x < 4294967296) : x &&& 0xfffffffc = x / 4 * 4 := by
  have hm : 0xfffffffc = (2 ^ 30 - 1) <<< 2 := by decide
  have hx : x / 4 * 4 = (x >>> 2) <<< 2 := by
    rw [Nat.shiftRight_eq_div_pow, Nat.shiftLeft_eq]
  rw [hx, hm]
  apply Nat.eq_of_testBit_eq
  intro i
  rw [Nat.testBit_and, Nat.testBit_shiftLeft, Nat.testBit_shiftLeft, Nat.testBit_two_pow_sub_one,
    Nat.testBit_shiftRight]
  rcases Nat.lt_or_ge i 2 with hi | hi
  · simp [Nat.not_le_of_lt hi]
  · rw [show 2 + (i - 2) = i by omega]
    rcases Nat.lt_or_ge i 32 with hi' | hi'
    · simp [hi, show i - 2 < 30 by omega]
    · have hz : x.testBit i = false :=
        Nat.testBit_lt_two_pow (Nat.lt_of_lt_of_le h (Nat.pow_le_pow_right (by decide : 0 < 2) hi'))
      simp [hz]

theorem pad4_length {n : Nat} (h : n < 2147483648) :
    (pad4 (UInt32.ofNat n)).toNat = (n + 3) / 4 * 4 := by
  unfold pad4
  rw [UInt32.toNat_and, UInt32.toNat_add, UInt32.toNat_ofNat']
  have h1 : (n % 2 ^ 32 + (3 : UInt32).toNat) % 2 ^ 32 = n + 3 := by
    show (n % 2 ^ 32 + 3) % 2 ^ 32 = n + 3
    omega
  rw [h1]
  exact and_mask (n + 3) (by omega)

/-! ## scanning -/

theorem load16_append_left {big : Bool} {a m : List UInt8} {off : Nat} {w : UInt16}
    (h : load16 big a off = some w) : load16 big (a ++ m) off = some w := by
  unfold load16 at h ⊢
  obtain ⟨d, h1, h2⟩ := Option.map_eq_some_iff.mp h
  rw [load_append_left h1, Option.map_some, h2]

/-- a node is not the end of a block -/
theorem NodeOk.not_ff {big : Bool} {nb : List UInt8} (h : NodeOk big nb) (l : List UInt8) :
    (nb ++ l).all (· == 0xff) = false := by
  obtain ⟨hm, -, hlen, -⟩ := h
  match nb, hlen with
  | x :: y :: r, _ =>
    by_contra hall
    simp only [Bool.not_eq_false, List.cons_append, List.all_cons, Bool.and_eq_true,
      beq_iff_eq] at hall
    obtain ⟨hx, hy, -⟩ := hall
    subst hx hy
    cases big <;> exact absurd hm (by simp [load16, load, slice, jffs2MagicBitmask])

/-- in free space there is no node -/
theorem free_magic {big : Bool} {l : List UInt8} (h : l.all (· == 0xff) = true) (h2 : 2 ≤ l.length) :
    load16 big l 0 = some 0xffff := by
  match l, h2 with
  | x :: y :: r, _ =>
    simp only [List.all_cons, Bool.and_eq_true, beq_iff_eq] at h
    obtain ⟨rfl, rfl, -⟩ := h
    cases big <;> simp [load16, load, slice]

/-- the first node of what is left of a block -/
theorem NodeOk.scan_cons {big : Bool} {nb : List UInt8} (h : NodeOk big nb) {node : Node}
    (hp : parseNode big nb = some node) (l : List UInt8) (fuel : Nat) :
    scan big (fuel + 1) (padNode nb ++ l) = (scan big fuel l).map (node :: ·) := by
  have hn : (UInt32.ofNat nb.length).toNat = nb.length := by
    rw [UInt32.toNat_ofNat']
    exact Nat.mod_eq_of_lt (by have := h.length; omega)
  have hd : (padNode nb ++ l).drop (pad4 (UInt32.ofNat nb.length)).toNat = l := by
    rw [pad4_length h.length.2, ← padNode_length]
    exact List.drop_left
  have hb : load (padNode nb ++ l) 0 (UInt32.ofNat nb.length).toNat = some nb := by
    unfold padNode
    rw [hn, List.append_assoc]
    exact load_split (List.nil_append _).symm rfl rfl
  have h1 : load16 big (padNode nb ++ l) 0 = some jffs2MagicBitmask := by
    unfold padNode
    rw [List.append_assoc]
    exact load16_append_left h.magic
  have h2 : load32 big (padNode nb ++ l) 4 = some (UInt32.ofNat nb.length) := by
    unfold padNode
    rw [List.append_assoc]
    exact load32_append_left h.totlen
  have h3 : (padNode nb ++ l).all (· == 0xff) = false := by
    unfold padNode
    rw [List.append_assoc]
    exact h.not_ff _
  conv_lhs => unfold scan
  rw [h3, if_neg (by simp)]
  simp only [h1, h2, hb, hp, hd, Option.bind_eq_bind, Option.bind_some, ne_eq, not_true_eq_false,
    if_false]
  cases scan big fuel l <;> rfl

/-- **Scanning** finds the nodes that were laid down. -/
theorem scan_laid {big : Bool} {k : Nat} : ∀ {ns : List (List UInt8)} {nodes : List Node}
    {fuel : Nat}, (∀ nb ∈ ns, NodeOk big nb) → ns.map (parseNode big) = nodes.map some →
    ns.length < fuel →
    scan big fuel (ns.flatMap padNode ++ List.replicate k 0xff) = some nodes
  | [], nodes, fuel + 1, _, hp, _ => by
    have hnil : nodes = [] := List.map_eq_nil_iff.mp hp.symm
    unfold scan
    rw [hnil, if_pos]
    simp
  | nb :: ns, [], fuel, _, hp, _ => absurd hp (by simp)
  | nb :: ns, node :: nodes, fuel + 1, hok, hp, hf => by
    obtain ⟨h1, h2⟩ := List.cons.inj hp
    have hrest : scan big fuel (ns.flatMap padNode ++ List.replicate k 0xff) = some nodes :=
      scan_laid (fun nb' h => hok nb' (List.mem_cons_of_mem nb h)) h2 (by simp at hf; omega)
    rw [List.flatMap_cons, List.append_assoc,
      (hok nb List.mem_cons_self).scan_cons h1, hrest, Option.map_some]

theorem laid_length_ge {big : Bool} : ∀ {ns : List (List UInt8)}, (∀ nb ∈ ns, NodeOk big nb) →
    ns.length ≤ (ns.flatMap padNode).length
  | [], _ => Nat.le_refl 0
  | nb :: ns, h => by
    have h1 := (h nb List.mem_cons_self).length
    have h2 := laid_length_ge fun nb' hb => h nb' (List.mem_cons_of_mem nb hb)
    rw [List.flatMap_cons, List.length_append, padNode_length, List.length_cons]
    omega

/-- a finished block -/
theorem scanBlock_laid {E : Nat} {big : Bool} {ns : List (List UInt8)} {nodes : List Node}
    (hok : ∀ nb ∈ ns, NodeOk big nb) (hp : ns.map (parseNode big) = nodes.map some) :
    scanBlock big (padTo E (laid big ns)) = some nodes := by
  have hlen := laid_length_ge hok
  unfold scanBlock padTo laid
  rw [List.append_assoc, List.take_left, if_pos rfl, List.drop_left]
  apply scan_laid hok hp
  rw [List.length_append, List.length_append, cleanMarker_length]
  omega

end Mtd
