import Firmware.Ead.Crypt
import Firmware.Lib.Rotate

/-!
# tinysrp: SHA-1

`t_sha.c`.  The block function works in a window of 16 words, on either byte order of the host;
`SHA1Update` takes the data in pieces.

* `sha1Transform`                one block, in the window;
* `sha1Transform_eq`             it is the block function of `sha1.c`, with its 80 words;
* `sha1Update`, `sha1Final`;
* `sha1`                         the digest of a message as a whole, over the padded message;
* `Absorbed`                     what a context knows after some data.
-/

set_option linter.unusedVariables false

namespace Ead
open Img Word

/-! ## the block function -/

/-- `blk0`: the word `i` of the window, in the order of the host, becomes big-endian -/
def blk0 (big : Bool) (l : List UInt32) (i : Nat) : UInt32 :=
  let w := l.getD i 0
  if big then w else (rol32 w 24 &&& 0xFF00FF00) ||| (rol32 w 8 &&& 0x00FF00FF)

/-- `blk` -/
def blk (l : List UInt32) (i : Nat) : UInt32 :=
  rol32 (l.getD ((i + 13) % 16) 0 ^^^ l.getD ((i + 8) % 16) 0 ^^^ l.getD ((i + 2) % 16) 0 ^^^
    l.getD (i % 16) 0) 1

/-- the variables in the order in which the next macro gets them, and `block->l` -/
structure Window where
  regs : Digest
  l : List UInt32

/-- `R0` to `R4`: the function, the constant, and the word, which stays in the window -/
def sha1Round (f : UInt32 → UInt32 → UInt32 → UInt32) (k : UInt32) (word : List UInt32 → Nat → UInt32)
    (s : Window) (i : Nat) : Window :=
  let r := s.regs
  let w := word s.l i
  ⟨⟨r.e + (f r.b r.c r.d + w + k + rol32 r.a 5), r.a, rol32 r.b 30, r.c, r.d⟩, s.l.set (i % 16) w⟩

def r0 (big : Bool) := sha1Round (fun w x y => (w &&& (x ^^^ y)) ^^^ y) 0x5A827999 (blk0 big)
def r1 := sha1Round (fun w x y => (w &&& (x ^^^ y)) ^^^ y) 0x5A827999 blk
def r2 := sha1Round (fun w x y => w ^^^ x ^^^ y) 0x6ED9EBA1 blk
def r3 := sha1Round (fun w x y => ((w ||| x) &&& y) ||| (w &&& x)) 0x8F1BBCDC blk
def r4 := sha1Round (fun w x y => w ^^^ x ^^^ y) 0xCA62C1D6 blk

/-- `big` is the byte order of the host; the workspace is a copy of the buffer -/
def sha1Transform (big : Bool) (state : Digest) (buffer : List UInt8) : Digest :=
  let s : Window := ⟨state, (List.range 16).map fun i => get32 big (slice buffer (4 * i) 4)⟩
  let s := (List.range' 0 16).foldl (r0 big) s
  let s := (List.range' 16 4).foldl r1 s
  let s := (List.range' 20 20).foldl r2 s
  let s := (List.range' 40 20).foldl r3 s
  let s := (List.range' 60 20).foldl r4 s
  ⟨state.a + s.regs.a, state.b + s.regs.b, state.c + s.regs.c, state.d + s.regs.d, state.e + s.regs.e⟩

/-! ## the context -/

structure ShaCtx where
  state : Digest
  count0 : UInt32
  count1 : UInt32
  buffer : List UInt8

/-- `SHA1Init`; the buffer is not set -/
def sha1Init (buffer : List UInt8) : ShaCtx := ⟨shaInit, 0, 0, buffer⟩

/-- the counter of the bits, in two words -/
def ShaCtx.addCount (ctx : ShaCtx) (len : UInt32) : ShaCtx :=
  let count0 := ctx.count0 + (len <<< 3)
  let count1 := if count0 < len <<< 3 then ctx.count1 + 1 else ctx.count1
  { ctx with count0 := count0, count1 := count1 + (len >>> 29) }

/-- the bytes that wait in the buffer -/
def ShaCtx.used (ctx : ShaCtx) : Nat := ((ctx.count0 >>> 3) &&& 63).toNat

def sha1Update (big : Bool) (ctx : ShaCtx) (data : List UInt8) : ShaCtx :=
  let j := ctx.used
  let ctx := ctx.addCount (UInt32.ofNat data.length)
  if (j + data.length) % 4294967296 > 63 then
    let i := 64 - j
    let buffer := poke ctx.buffer j (data.take i)
    let rest := data.drop i
    let n := rest.length / 64
    { ctx with
      state := foldBlocks 64 (sha1Transform big) n rest (sha1Transform big ctx.state buffer)
      buffer := poke buffer 0 (rest.drop (64 * n)) }
  else { ctx with buffer := poke ctx.buffer j data }

/-- `while ((context->count[0] & 504) != 448)` -/
def padLoop (big : Bool) : Nat → ShaCtx → ShaCtx
  | 0, ctx => ctx
  | fuel + 1, ctx => if ctx.count0 &&& 504 ≠ 448 then padLoop big fuel (sha1Update big ctx [0]) else ctx

def sha1Final (big : Bool) (ctx : ShaCtx) : List UInt8 :=
  let finalcount := put32 true ctx.count1 ++ put32 true ctx.count0
  let ctx := sha1Update big ctx [0x80]
  let ctx := padLoop big 64 ctx
  (sha1Update big ctx finalcount).state.bytes

/-- the first test of the standard -/
example : sha1Final false (sha1Update false (sha1Update false (sha1Init (List.replicate 64 0)) [97]) [98, 99])
    = [0xA9, 0x99, 0x3E, 0x36, 0x47, 0x06, 0x81, 0x6A, 0xBA, 0x3E, 0x25, 0x71, 0x78, 0x50, 0xC2, 0x6C,
      0x9C, 0xD0, 0xD8, 0x9D] := by decide +kernel

/-! ## the words of a block -/

def nextWord (w : List UInt32) (i : Nat) : List UInt32 :=
  w ++ [rol32 (w.getD (i + 13) 0 ^^^ w.getD (i + 8) 0 ^^^ w.getD (i + 2) 0 ^^^ w.getD i 0) 1]

/-- the first `16 + n` words of `sha1.c` -/
def someWords (data : List UInt8) (n : Nat) : List UInt32 :=
  (List.range n).foldl nextWord ((List.range 16).map fun i => get32 true (slice data (4 * i) 4))

theorem someWords_succ (data : List UInt8) (n : Nat) : someWords data (n + 1) = someWords data n ++
    [rol32 ((someWords data n).getD (n + 13) 0 ^^^ (someWords data n).getD (n + 8) 0 ^^^
      (someWords data n).getD (n + 2) 0 ^^^ (someWords data n).getD n 0) 1] := by
  show (List.range (n + 1)).foldl nextWord _ = _
  rw [List.range_succ (n := n), List.foldl_append]
  rfl

theorem someWords_length (data : List UInt8) (n : Nat) : (someWords data n).length = 16 + n := by
  induction n with
  | zero => rfl
  | succ n ih =>
    rw [someWords_succ, List.length_append, ih]
    rfl

/-- a word stays what it is -/
theorem someWords_getD (data : List UInt8) {i n : Nat} (h : i < 16 + n) (k : Nat) :
    (someWords data (n + k)).getD i 0 = (someWords data n).getD i 0 := by
  induction k with
  | zero => rfl
  | succ k ih =>
    rw [← Nat.add_assoc, someWords_succ, List.getD_append _ _ _ _ (by rw [someWords_length]; omega), ih]

/-- the word `i` of the 80 -/
def shaWord (data : List UInt8) (i : Nat) : UInt32 := (shaWords data).getD i 0

theorem shaWord_eq (data : List UInt8) {i n : Nat} (h : i < 16 + n) (hn : n ≤ 64) :
    (someWords data n).getD i 0 = shaWord data i := by
  have := someWords_getD data h (64 - n)
  rw [Nat.add_sub_cancel' hn] at this
  exact this.symm

theorem shaWord_first (data : List UInt8) {i : Nat} (h : i < 16) :
    shaWord data i = get32 true (slice data (4 * i) 4) := by
  rw [← shaWord_eq data (n := 0) (by omega) (by decide)]
  exact Cells.getD_map_range _ h

theorem shaWord_next (data : List UInt8) {i : Nat} (h : i < 64) :
    shaWord data (i + 16) = rol32 (shaWord data (i + 13) ^^^ shaWord data (i + 8) ^^^ shaWord data (i + 2) ^^^
      shaWord data i) 1 := by
  have hl := someWords_length data i
  rw [← shaWord_eq data (n := i + 1) (by omega) (by omega), someWords_succ,
    List.getD_append_right _ _ _ _ (by omega), hl, show i + 16 - (16 + i) = 0 by omega,
    shaWord_eq data (by omega) (by omega), shaWord_eq data (by omega) (by omega),
    shaWord_eq data (by omega) (by omega), shaWord_eq data (by omega) (by omega)]
  rfl

theorem shaWords_slice (data : List UInt8) {s n : Nat} (h : s + n ≤ 80) :
    slice (shaWords data) s n = (List.range' s n).map (shaWord data) := by
  have hl : (shaWords data).length = 80 := someWords_length data 64
  unfold slice
  apply List.ext_getElem
  · rw [List.length_take, List.length_drop, List.length_map, List.length_range']
    omega
  · intro i h1 h2
    rw [List.length_map, List.length_range'] at h2
    rw [List.getElem_take, List.getElem_drop, List.getElem_map, List.getElem_range', Nat.one_mul]
    unfold shaWord
    rw [List.getD_eq_getElem?_getD, List.getElem?_eq_getElem (by omega)]
    rfl

/-! ## the window -/

/-- the word of the host is the big-endian one, whatever its order -/
theorem blk0_eq (big : Bool) (l : List UInt32) (i : Nat) {b : List UInt8} (hb : b.length = 4)
    (h : l.getD i 0 = get32 big b) : blk0 big l i = get32 true b := by
  unfold blk0
  rw [h]
  cases big with
  | true => rfl
  | false =>
    have hw : put32 false (get32 false b) = b := ((get32_eq_iff hb).mp rfl).symm
    obtain ⟨b0, b1, b2, b3, rfl⟩ : ∃ b0 b1 b2 b3, b = [b0, b1, b2, b3] := by
      match b, hb with
      | [b0, b1, b2, b3], _ => exact ⟨b0, b1, b2, b3, rfl⟩
    have hs := swap_bytes hw
    have ht : le32 (get32 true [b0, b1, b2, b3]) = [b3, b2, b1, b0] := le32_ofLe32 b3 b2 b1 b0
    have he := congrArg ofLe32 (hs.trans ht.symm)
    rwa [ofLe32_le32, ofLe32_le32] at he

/-- the window when the first `i` words are in it: the last 16 of them, and those of the host -/
structure Shows (big : Bool) (data : List UInt8) (i : Nat) (l : List UInt32) : Prop where
  length : l.length = 16
  words : ∀ t, t < i → i ≤ t + 16 → l.getD (t % 16) 0 = shaWord data t
  host : ∀ t, i ≤ t → t < 16 → l.getD t 0 = get32 big (slice data (4 * t) 4)

variable {big : Bool} {data : List UInt8} {i : Nat} {l : List UInt32}

theorem shows_init : Shows big data 0 ((List.range 16).map fun i => get32 big (slice data (4 * i) 4)) := by
  refine ⟨rfl, ?_, ?_⟩
  · intro t ht
    omega
  · intro t _ ht
    exact Cells.getD_map_range _ ht

theorem Shows.put (h : Shows big data i l) {w : UInt32} (hw : w = shaWord data i) :
    Shows big data (i + 1) (l.set (i % 16) w) := by
  have hl := h.length
  have hg (t : Nat) := Cells.getD_set (d := 0) l (i % 16) t w (by omega)
  refine ⟨by rw [List.length_set, hl], ?_, ?_⟩
  · intro t ht ht'
    rw [hg]
    by_cases he : t = i
    · rw [if_pos (by rw [he]), he, hw]
    · rw [if_neg (by omega), h.words t (by omega) (by omega)]
  · intro t ht ht'
    rw [hg, if_neg (by omega), h.host t (by omega) ht']

theorem Shows.blk0 (h : Shows big data i l) (hi : i < 16) (hd : data.length = 64) :
    Ead.blk0 big l i = shaWord data i := by
  rw [shaWord_first data hi]
  exact blk0_eq big l i (slice_length _ _ _ (by omega)) (h.host i (Nat.le_refl i) hi)

theorem Shows.blk (h : Shows big data i l) (hi : 16 ≤ i) (hi' : i < 80) : Ead.blk l i = shaWord data i := by
  have hn := shaWord_next data (i := i - 16) (by omega)
  have h13 := h.words (i - 16 + 13) (by omega) (by omega)
  have h8 := h.words (i - 16 + 8) (by omega) (by omega)
  have h2 := h.words (i - 16 + 2) (by omega) (by omega)
  have h0 := h.words (i - 16) (by omega) (by omega)
  rw [show (i - 16 + 13) % 16 = (i + 13) % 16 by omega] at h13
  rw [show (i - 16 + 8) % 16 = (i + 8) % 16 by omega] at h8
  rw [show (i - 16 + 2) % 16 = (i + 2) % 16 by omega] at h2
  rw [show (i - 16) % 16 = i % 16 by omega] at h0
  rw [show i - 16 + 16 = i by omega] at hn
  unfold Ead.blk
  rw [hn, h13, h8, h2, h0]

/-- one macro is one turn of a loop of `sha1.c` -/
theorem sha1Round_eq {f g : UInt32 → UInt32 → UInt32 → UInt32} (hf : ∀ x y z, f x y z = g x y z) (k : UInt32)
    (word : List UInt32 → Nat → UInt32) (s : Window) (i : Nat) :
    (sha1Round f k word s i).regs = shaRound g k s.regs (word s.l i) := by
  unfold sha1Round shaRound
  dsimp only
  rw [hf]
  congr 1
  ac_rfl

/-- `n` macros of one kind -/
theorem sha1Rounds_eq {f g : UInt32 → UInt32 → UInt32 → UInt32} (hf : ∀ x y z, f x y z = g x y z) (k : UInt32)
    {word : List UInt32 → Nat → UInt32} {b : Nat} (n : Nat)
    (hw : ∀ i l, b ≤ i → i < b + n → Shows big data i l → word l i = shaWord data i) :
    ∀ s : Window, Shows big data b s.l →
      Shows big data (b + n) ((List.range' b n).foldl (sha1Round f k word) s).l ∧
      ((List.range' b n).foldl (sha1Round f k word) s).regs =
        ((List.range' b n).map (shaWord data)).foldl (shaRound g k) s.regs := by
  induction n generalizing b with
  | zero =>
    intro s hs
    exact ⟨hs, rfl⟩
  | succ n ih =>
    intro s hs
    have hword := hw b s.l (Nat.le_refl b) (by omega) hs
    have hstep : Shows big data (b + 1) (sha1Round f k word s b).l := hs.put hword
    obtain ⟨h1, h2⟩ := ih (b := b + 1) (fun i l hb hi => hw i l (by omega) (by omega)) _ hstep
    rw [List.range'_succ, List.foldl_cons, List.map_cons, List.foldl_cons, ← hword, ← sha1Round_eq hf]
    rw [show b + 1 + n = b + (n + 1) by omega] at h1
    exact ⟨h1, h2⟩

/-- `f3` adds where the macro has an or: the two sides have no bit in common -/
theorem majority_eq (x y z : UInt32) : ((x ||| y) &&& z) ||| (x &&& y) = f3 x y z := by
  unfold f3
  apply UInt32.toBitVec_inj.mp
  have hd : (x &&& y).toBitVec &&& (z &&& (x ^^^ y)).toBitVec = 0#32 := by
    simp only [UInt32.toBitVec_and, UInt32.toBitVec_xor]
    ext i hi
    simp
    grind
  rw [UInt32.toBitVec_add, BitVec.add_eq_or_of_and_eq_zero _ _ hd]
  simp only [UInt32.toBitVec_and, UInt32.toBitVec_xor, UInt32.toBitVec_or]
  ext i hi
  simp
  grind

/-- **The two block functions are one**: the window of 16 words, on either byte order, computes what
the 80 words of `sha1.c` do. -/
theorem sha1Transform_eq (big : Bool) (state : Digest) {data : List UInt8} (hd : data.length = 64) :
    sha1Transform big state data = shaTransform state data := by
  have e1 (x y z : UInt32) : (x &&& (y ^^^ z)) ^^^ z = f1 x y z := UInt32.xor_comm _ _
  have e2 (x y z : UInt32) : x ^^^ y ^^^ z = f2 x y z := rfl
  have hblk (b n : Nat) (hb : 16 ≤ b) (hn : b + n ≤ 80) (i : Nat) (l : List UInt32) (h1 : b ≤ i)
      (h2 : i < b + n) (h : Shows big data i l) : blk l i = shaWord data i := h.blk (by omega) (by omega)
  -- the words 0 to 15 are those of the host, the others are made
  obtain ⟨s0, g0⟩ := sha1Rounds_eq e1 0x5A827999 (b := 0) 16
    (fun i l _ hi h => Shows.blk0 h (by omega) hd) ⟨state, _⟩ (show Shows big data 0 _ from shows_init)
  obtain ⟨s1, g1⟩ := sha1Rounds_eq e1 0x5A827999 4 (hblk 16 4 (by decide) (by decide)) _ s0
  obtain ⟨s2, g2⟩ := sha1Rounds_eq e2 0x6ED9EBA1 20 (hblk 20 20 (by decide) (by decide)) _ s1
  obtain ⟨s3, g3⟩ := sha1Rounds_eq majority_eq 0x8F1BBCDC 20 (hblk 40 20 (by decide) (by decide)) _ s2
  obtain ⟨s4, g4⟩ := sha1Rounds_eq e2 0xCA62C1D6 20 (hblk 60 20 (by decide) (by decide)) _ s3
  have h20 : List.range' 0 16 ++ List.range' 16 4 = List.range' 0 20 := by decide
  rw [g3, g2, g1, g0, ← List.foldl_append, ← List.map_append, h20] at g4
  unfold sha1Transform shaTransform
  dsimp only
  rw [shaWords_slice data (by decide), shaWords_slice data (by decide), shaWords_slice data (by decide),
    shaWords_slice data (by decide)]
  exact congrArg (fun h : Digest =>
    (⟨state.a + h.a, state.b + h.b, state.c + h.c, state.d + h.d, state.e + h.e⟩ : Digest)) g4

/-! ## the digest of a message -/

/-- the message, the mark, zeros and the length in bits -/
def shaPadded (m : List UInt8) : List UInt8 :=
  m ++ (0x80 :: (zeros ((119 - m.length % 64) % 64) ++
    (put32 true (UInt32.ofNat (8 * m.length / 4294967296)) ++ put32 true (UInt32.ofNat (8 * m.length)))))

def sha1 (m : List UInt8) : List UInt8 :=
  (foldBlocks 64 shaTransform ((shaPadded m).length / 64) (shaPadded m) shaInit).bytes

theorem sha1_length (m : List UInt8) : (sha1 m).length = 20 := by
  unfold sha1 Digest.bytes
  simp

/-- what `ctx` knows after the bytes of `m` -/
structure ShaCtx.Absorbed (big : Bool) (ctx : ShaCtx) (m : List UInt8) : Prop where
  count0 : ctx.count0 = UInt32.ofNat (8 * m.length)
  count1 : ctx.count1 = UInt32.ofNat (8 * m.length / 4294967296)
  room : ctx.buffer.length = 64
  data : Img.Absorbed 64 (sha1Transform big) shaInit m ctx.state (ctx.buffer.take (m.length % 64))

variable {ctx : ShaCtx} {m : List UInt8}

theorem sha1Init_absorbed (big : Bool) {buffer : List UInt8} (h : buffer.length = 64) :
    (sha1Init buffer).Absorbed big [] :=
  ⟨rfl, rfl, h, Img.Absorbed.nil (by decide)⟩

theorem ShaCtx.Absorbed.used (h : ctx.Absorbed big m) : ctx.used = m.length % 64 := by
  unfold ShaCtx.used
  rw [UInt32.toNat_and, UInt32.toNat_shiftRight, h.count0, UInt32.toNat_ofNat', Nat.shiftRight_eq_div_pow]
  show 8 * m.length % 4294967296 / 8 &&& 2 ^ 6 - 1 = _
  rw [Nat.and_two_pow_sub_one_eq_mod]
  omega

theorem shl3 {n : Nat} (h : n < 4294967296) : UInt32.ofNat n <<< 3 = UInt32.ofNat (8 * n) := by
  apply UInt32.toNat_inj.mp
  rw [UInt32.toNat_shiftLeft, UInt32.toNat_ofNat', UInt32.toNat_ofNat', Nat.shiftLeft_eq]
  show n % 4294967296 * 8 % 4294967296 = 8 * n % 4294967296
  omega

theorem ShaCtx.Absorbed.addCount (h : ctx.Absorbed big m) {n : Nat} (hn : n < 4294967296) :
    (ctx.addCount (UInt32.ofNat n)).count0 = UInt32.ofNat (8 * (m.length + n)) ∧
    (ctx.addCount (UInt32.ofNat n)).count1 = UInt32.ofNat (8 * (m.length + n) / 4294967296) := by
  have h0 : ctx.count0 + (UInt32.ofNat n <<< 3) = UInt32.ofNat (8 * (m.length + n)) := by
    rw [h.count0, shl3 hn, ← UInt32.ofNat_add, Nat.mul_add]
  have h29 : UInt32.ofNat n >>> 29 = UInt32.ofNat (n / 536870912) := by
    apply UInt32.toNat_inj.mp
    rw [UInt32.toNat_shiftRight, UInt32.toNat_ofNat', UInt32.toNat_ofNat', Nat.shiftRight_eq_div_pow]
    show n % 4294967296 / 536870912 = n / 536870912 % 4294967296
    omega
  have hc : ctx.count0 + (UInt32.ofNat n <<< 3) < UInt32.ofNat n <<< 3 ↔
      8 * (m.length + n) % 4294967296 < 8 * n % 4294967296 := by
    rw [h0, shl3 hn, UInt32.lt_iff_toNat_lt, UInt32.toNat_ofNat', UInt32.toNat_ofNat']
  refine ⟨h0, ?_⟩
  show (if ctx.count0 + (UInt32.ofNat n <<< 3) < UInt32.ofNat n <<< 3 then ctx.count1 + 1 else ctx.count1) +
    (UInt32.ofNat n >>> 29) = _
  rw [h29, h.count1]
  -- a carry is seen by the sum becoming smaller
  by_cases hlt : ctx.count0 + (UInt32.ofNat n <<< 3) < UInt32.ofNat n <<< 3
  · have := hc.mp hlt
    rw [if_pos hlt, show (1 : UInt32) = UInt32.ofNat 1 from rfl, ← UInt32.ofNat_add, ← UInt32.ofNat_add]
    congr 1
    omega
  · have : ¬ 8 * (m.length + n) % 4294967296 < 8 * n % 4294967296 := fun h' => hlt (hc.mpr h')
    rw [if_neg hlt, ← UInt32.ofNat_add]
    congr 1
    omega

theorem take_poke (buf d : List UInt8) {off : Nat} (h : off + d.length ≤ buf.length) :
    (poke buf off d).take (off + d.length) = buf.take off ++ d := by
  unfold poke
  rw [← List.append_assoc]
  exact List.take_left' (by rw [List.length_append, List.length_take]; omega)

/-- a piece that an `unsigned int` counts, with the bytes that wait -/
theorem sha1Update_absorbed (h : ctx.Absorbed big m) {d : List UInt8} (hd : d.length + 63 < 4294967296) :
    (sha1Update big ctx d).Absorbed big (m ++ d) := by
  obtain ⟨h0, h1⟩ := h.addCount (n := d.length) (by omega)
  rw [← List.length_append] at h0 h1
  have hu := h.used
  have hr := h.room
  have hpl : (ctx.buffer.take (m.length % 64)).length = m.length % 64 := by
    rw [List.length_take, hr]
    omega
  unfold sha1Update
  dsimp only
  rw [hu, Nat.mod_eq_of_lt (show m.length % 64 + d.length < 4294967296 by omega)]
  split
  · next hfull =>
    have hi : (d.take (64 - m.length % 64)).length = 64 - m.length % 64 := by
      rw [List.length_take]
      omega
    have hroom : (poke ctx.buffer (m.length % 64) (d.take (64 - m.length % 64))).length = 64 := by
      rw [poke_length _ _ _ (by rw [hr, hi]; omega), hr]
    have hbuf := take_poke ctx.buffer (d.take (64 - m.length % 64)) (show m.length % 64 + _ ≤ _ by
      rw [hr, hi]
      omega)
    rw [List.take_of_length_le (by rw [hroom, hi]; omega)] at hbuf
    have hb := h.data.blocks (d := d.take (64 - m.length % 64)) (m := 1) (by rw [hpl, hi]; omega)
    rw [foldBlocks_one (by rw [List.length_append, hpl, hi]; omega), ← hbuf] at hb
    have hrest := hb.rest (d.drop (64 - m.length % 64))
    rw [List.append_assoc, List.take_append_drop] at hrest
    have hlen := hrest.short
    have hrl : (d.drop (64 - m.length % 64)).length = d.length - (64 - m.length % 64) :=
      List.length_drop
    have htail : ((d.drop (64 - m.length % 64)).drop
        (64 * ((d.drop (64 - m.length % 64)).length / 64))).length = (m ++ d).length % 64 := by
      rw [List.length_drop, hrl, List.length_append]
      omega
    refine ⟨h0, h1, ?_, ?_⟩
    · show (poke (poke ctx.buffer _ _) 0 _).length = 64
      rw [poke_length _ _ _ (by rw [hroom]; omega), hroom]
    · show Img.Absorbed 64 (sha1Transform big) shaInit (m ++ d) _ (List.take _ (poke (poke ctx.buffer _ _) 0 _))
      have ht := take_poke (poke ctx.buffer (m.length % 64) (d.take (64 - m.length % 64)))
        ((d.drop (64 - m.length % 64)).drop (64 * ((d.drop (64 - m.length % 64)).length / 64)))
        (show 0 + _ ≤ _ by
          rw [hroom]
          omega)
      rw [htail, Nat.zero_add, List.take_zero, List.nil_append] at ht
      rw [ht]
      exact hrest
  · next hshort =>
    have hm : (m ++ d).length % 64 = m.length % 64 + d.length := by
      rw [List.length_append]
      omega
    refine ⟨h0, h1, ?_, ?_⟩
    · show (poke ctx.buffer _ _).length = 64
      rw [poke_length _ _ _ (by rw [hr]; omega), hr]
    · show Img.Absorbed 64 (sha1Transform big) shaInit (m ++ d) ctx.state (List.take _ (poke ctx.buffer _ d))
      rw [hm, take_poke _ _ (by rw [hr]; omega)]
      exact h.data.wait (by rw [hpl]; omega)

/-! ## the end -/

/-- the zeros that are still to come, up to eight bytes before the end of a block -/
def zerosLeft (n : Nat) : Nat := (120 - n % 64) % 64

theorem padLoop_absorbed (fuel : Nat) : ∀ {ctx : ShaCtx} {m : List UInt8}, ctx.Absorbed big m →
    zerosLeft m.length < fuel → (padLoop big fuel ctx).Absorbed big (m ++ zeros (zerosLeft m.length)) := by
  induction fuel with
  | zero =>
    intro ctx m h hf
    omega
  | succ fuel ih =>
    intro ctx m h hf
    have hbits : ctx.count0 &&& 504 ≠ 448 ↔ m.length % 64 ≠ 56 := by
      have hn : (ctx.count0 &&& 504).toNat = 8 * (m.length % 64) := by
        have h3 : (m.length % 536870912 &&& 63) <<< 3 = 8 * m.length % 4294967296 &&& 504 := by
          rw [Nat.shiftLeft_and_distrib, Nat.shiftLeft_eq]
          show m.length % 536870912 * 8 &&& 504 = _
          congr 1
          omega
        rw [UInt32.toNat_and, h.count0, UInt32.toNat_ofNat']
        show 8 * m.length % 4294967296 &&& 504 = _
        rw [← h3, Nat.shiftLeft_eq]
        show (m.length % 536870912 &&& 2 ^ 6 - 1) * 8 = _
        rw [Nat.and_two_pow_sub_one_eq_mod]
        omega
      rw [Ne, ← UInt32.toNat_inj, hn]
      show ¬ 8 * (m.length % 64) = 448 ↔ _
      omega
    unfold padLoop
    by_cases h56 : m.length % 64 = 56
    · have hz : zerosLeft m.length = 0 := by
        unfold zerosLeft
        omega
      rw [if_neg (by rw [hbits]; omega), hz]
      show ctx.Absorbed big (m ++ [])
      rw [List.append_nil]
      exact h
    · have h1 := sha1Update_absorbed h (d := [0]) (by decide)
      have hlen : (m ++ [(0 : UInt8)]).length = m.length + 1 := List.length_append
      have hz : zerosLeft m.length = zerosLeft (m.length + 1) + 1 := by
        unfold zerosLeft
        omega
      have h2 := ih h1 (by rw [hlen]; omega)
      rw [hlen, List.append_assoc] at h2
      rw [if_pos (hbits.mpr h56), hz]
      exact h2

/-- **One context** gives the digest of all its data. -/
theorem sha1Final_eq (h : ctx.Absorbed big m) : sha1Final big ctx = sha1 m := by
  have h1 := sha1Update_absorbed h (d := [0x80]) (by decide)
  have hz : zerosLeft (m ++ [(0x80 : UInt8)]).length = (119 - m.length % 64) % 64 := by
    unfold zerosLeft
    rw [List.length_append]
    show (120 - (m.length + 1) % 64) % 64 = _
    omega
  have h2 := padLoop_absorbed 64 h1 (by
    unfold zerosLeft
    omega)
  rw [hz] at h2
  have h3 := sha1Update_absorbed h2 (d := put32 true ctx.count1 ++ put32 true ctx.count0) (by
    rw [List.length_append, put32_length, put32_length]
    decide)
  have hp : (m ++ [0x80] ++ zeros ((119 - m.length % 64) % 64)) ++ (put32 true ctx.count1 ++ put32 true ctx.count0)
      = shaPadded m := by
    rw [h.count0, h.count1, List.append_assoc, List.append_assoc]
    rfl
  have hl : (shaPadded m).length % 64 = 0 := by
    rw [← hp]
    simp only [List.length_append, put32_length, zeros_length, List.length_cons, List.length_nil]
    omega
  rw [hp] at h3
  have hd := h3.data
  rw [hl, List.take_zero] at hd
  unfold sha1Final sha1
  dsimp only
  rw [hd.done, foldBlocks_congr (fun a b hb => sha1Transform_eq big a hb) _ _ _ (Nat.mul_div_le _ _)]

theorem sha1Updates_absorbed (pieces : List (List UInt8)) : ∀ {ctx : ShaCtx} {m : List UInt8},
    ctx.Absorbed big m → (∀ d ∈ pieces, d.length + 63 < 4294967296) →
    (pieces.foldl (sha1Update big) ctx).Absorbed big (m ++ pieces.flatten) := by
  induction pieces with
  | nil =>
    intro ctx m h _
    rw [List.flatten_nil, List.append_nil]
    exact h
  | cons d pieces ih =>
    intro ctx m h hd
    rw [List.flatten_cons, ← List.append_assoc]
    exact ih (sha1Update_absorbed h (hd d List.mem_cons_self)) (fun d' hd' => hd d' (List.mem_cons_of_mem d hd'))

/-- **The pieces do not matter**, nor does the byte order of the host: the digest is that of `sha1.c`'s
block function over the padded message. -/
theorem sha1Final_updates (big : Bool) {buffer : List UInt8} (hb : buffer.length = 64)
    (pieces : List (List UInt8)) (hp : ∀ d ∈ pieces, d.length + 63 < 4294967296) :
    sha1Final big (pieces.foldl (sha1Update big) (sha1Init buffer)) = sha1 pieces.flatten :=
  sha1Final_eq (sha1Updates_absorbed pieces (sha1Init_absorbed big hb) hp)

theorem sha1Final_abc : sha1Final false ([[97], [98, 99]].foldl (sha1Update false) (sha1Init (List.replicate 64 0)))
    = sha1 [97, 98, 99] :=
  sha1Final_updates false (by decide) [[97], [98, 99]] (by decide)

end Ead
