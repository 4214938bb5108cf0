import Firmware.Lib.Blocks

/-!
# md5

The MD5 of `md5.c`, which the tools carry along.  `MD5_Update` takes the data in pieces: whole
blocks of 64 bytes go into the registers, the rest waits in the buffer of the context.

* `block`             one block: the four rounds of `body`;
* `update`, `final`   `MD5_Update` and `MD5_Final`;
* `md5`               the digest of a message as a whole, over the padded message;
* `Absorbed`          what a context knows after some data;
* `final_updates`     the pieces do not matter.
-/

set_option linter.unusedVariables false

namespace Md5
open Img Word

/-! ## the transformation -/

def F (x y z : UInt32) : UInt32 := z ^^^ (x &&& (y ^^^ z))
def G (x y z : UInt32) : UInt32 := y ^^^ (z &&& (x ^^^ y))
def H (x y z : UInt32) : UInt32 := (x ^^^ y) ^^^ z
def H2 (x y z : UInt32) : UInt32 := x ^^^ (y ^^^ z)
def I (x y z : UInt32) : UInt32 := y ^^^ (x ||| ~~~z)

structure Regs where
  a : UInt32
  b : UInt32
  c : UInt32
  d : UInt32

/-- the function, the word of the block, the constant and the rotation of a step -/
abbrev Op : Type := (UInt32 → UInt32 → UInt32 → UInt32) × Nat × UInt32 × UInt32

def round1 : List Op :=
  [(F, 0, 0xd76aa478, 7), (F, 1, 0xe8c7b756, 12), (F, 2, 0x242070db, 17), (F, 3, 0xc1bdceee, 22),
   (F, 4, 0xf57c0faf, 7), (F, 5, 0x4787c62a, 12), (F, 6, 0xa8304613, 17), (F, 7, 0xfd469501, 22),
   (F, 8, 0x698098d8, 7), (F, 9, 0x8b44f7af, 12), (F, 10, 0xffff5bb1, 17), (F, 11, 0x895cd7be, 22),
   (F, 12, 0x6b901122, 7), (F, 13, 0xfd987193, 12), (F, 14, 0xa679438e, 17), (F, 15, 0x49b40821, 22)]

def round2 : List Op :=
  [(G, 1, 0xf61e2562, 5), (G, 6, 0xc040b340, 9), (G, 11, 0x265e5a51, 14), (G, 0, 0xe9b6c7aa, 20),
   (G, 5, 0xd62f105d, 5), (G, 10, 0x02441453, 9), (G, 15, 0xd8a1e681, 14), (G, 4, 0xe7d3fbc8, 20),
   (G, 9, 0x21e1cde6, 5), (G, 14, 0xc33707d6, 9), (G, 3, 0xf4d50d87, 14), (G, 8, 0x455a14ed, 20),
   (G, 13, 0xa9e3e905, 5), (G, 2, 0xfcefa3f8, 9), (G, 7, 0x676f02d9, 14), (G, 12, 0x8d2a4c8a, 20)]

def round3 : List Op :=
  [(H, 5, 0xfffa3942, 4), (H2, 8, 0x8771f681, 11), (H, 11, 0x6d9d6122, 16), (H2, 14, 0xfde5380c, 23),
   (H, 1, 0xa4beea44, 4), (H2, 4, 0x4bdecfa9, 11), (H, 7, 0xf6bb4b60, 16), (H2, 10, 0xbebfbc70, 23),
   (H, 13, 0x289b7ec6, 4), (H2, 0, 0xeaa127fa, 11), (H, 3, 0xd4ef3085, 16), (H2, 6, 0x04881d05, 23),
   (H, 9, 0xd9d4d039, 4), (H2, 12, 0xe6db99e5, 11), (H, 15, 0x1fa27cf8, 16), (H2, 2, 0xc4ac5665, 23)]

def round4 : List Op :=
  [(I, 0, 0xf4292244, 6), (I, 7, 0x432aff97, 10), (I, 14, 0xab9423a7, 15), (I, 5, 0xfc93a039, 21),
   (I, 12, 0x655b59c3, 6), (I, 3, 0x8f0ccc92, 10), (I, 10, 0xffeff47d, 15), (I, 1, 0x85845dd1, 21),
   (I, 8, 0x6fa87e4f, 6), (I, 15, 0xfe2ce6e0, 10), (I, 6, 0xa3014314, 15), (I, 13, 0x4e0811a1, 21),
   (I, 4, 0xf7537e82, 6), (I, 11, 0xbd3af235, 10), (I, 2, 0x2ad7d2bb, 15), (I, 9, 0xeb86d391, 21)]

/-- `STEP`; the registers move on by one place, as in the arguments of the next step -/
def step (x : List UInt8) (r : Regs) (o : Op) : Regs :=
  let a := r.a + (o.1 r.b r.c r.d + get32 false (slice x (4 * o.2.1) 4) + o.2.2.1)
  let a := (a <<< o.2.2.2) ||| (a >>> (32 - o.2.2.2))
  ⟨r.d, a + r.b, r.b, r.c⟩

/-- one round of the loop of `body` -/
def block (saved : Regs) (x : List UInt8) : Regs :=
  let r := (round1 ++ round2 ++ round3 ++ round4).foldl (step x) saved
  ⟨r.a + saved.a, r.b + saved.b, r.c + saved.c, r.d + saved.d⟩

/-! ## the context -/

structure Buffer where
  bytes : List UInt8
  full : bytes.length = 64

theorem Buffer.poke_full (buf : Buffer) {off : Nat} {d : List UInt8} (h : off + d.length ≤ 64) :
    (poke buf.bytes off d).length = 64 := by
  rw [poke_length buf.bytes off d (by rw [buf.full]; exact h), buf.full]

def Buffer.memcpy (buf : Buffer) (off : Nat) (d : List UInt8) (h : off + d.length ≤ 64) : Buffer :=
  ⟨poke buf.bytes off d, buf.poke_full h⟩

theorem Buffer.take_memcpy (buf : Buffer) {off : Nat} {d : List UInt8} (h : off + d.length ≤ 64) :
    (buf.memcpy off d h).bytes.take (off + d.length) = buf.bytes.take off ++ d := by
  show (buf.bytes.take off ++ (d ++ _)).take _ = _
  rw [← List.append_assoc]
  exact List.take_left' (by rw [List.length_append, List.length_take, buf.full]; omega)

structure Ctx where
  lo : UInt32
  hi : UInt32
  regs : Regs
  buffer : Buffer

def regs0 : Regs := ⟨0x67452301, 0xefcdab89, 0x98badcfe, 0x10325476⟩

/-- `MD5_Init`; the buffer is not set -/
def init (buf : Buffer) : Ctx := ⟨0, 0, regs0, buf⟩

/-- the bytes that wait in the buffer -/
def used (ctx : Ctx) : Nat := ctx.lo.toNat % 64

theorem used_lt (ctx : Ctx) : used ctx < 64 := Nat.mod_lt _ (by decide)

/-- the counters: `lo` counts 29 bits, `hi` the carries -/
def count (ctx : Ctx) (size : Nat) : Ctx :=
  let lo := UInt32.ofNat ((ctx.lo.toNat + size) % 536870912)
  let hi := if lo < ctx.lo then ctx.hi + 1 else ctx.hi
  { ctx with lo := lo, hi := hi + UInt32.ofNat (size / 536870912) }

theorem rest_fits (data : List UInt8) : 0 + (data.drop (64 * (data.length / 64))).length ≤ 64 := by
  rw [List.length_drop]
  omega

/-- `MD5_Update` with nothing in the buffer -/
def blocks (ctx : Ctx) (data : List UInt8) : Ctx :=
  let n := data.length / 64
  { ctx with
    regs := foldBlocks 64 block n data ctx.regs
    buffer := ctx.buffer.memcpy 0 (data.drop (64 * n)) (rest_fits data) }

theorem short_fits {n u : Nat} (h : n < 64 - u) : u + n ≤ 64 := by omega

theorem fill_fits (ctx : Ctx) (data : List UInt8) :
    used ctx + (data.take (64 - used ctx)).length ≤ 64 := by
  have := used_lt ctx
  rw [List.length_take]
  omega

def update (ctx : Ctx) (data : List UInt8) : Ctx :=
  let available := 64 - used ctx
  if used ctx = 0 then blocks (count ctx data.length) data
  else if h : data.length < available then
    { count ctx data.length with buffer := ctx.buffer.memcpy (used ctx) data (short_fits h) }
  else
    let buf := ctx.buffer.memcpy (used ctx) (data.take available) (fill_fits ctx data)
    blocks { count ctx data.length with regs := block ctx.regs buf.bytes, buffer := buf }
      (data.drop available)

theorem mark_fits (ctx : Ctx) : used ctx + [(0x80 : UInt8)].length ≤ 64 := used_lt ctx

theorem zeros_fits {u n : Nat} (h : u + n ≤ 64) : u + (zeros n).length ≤ 64 := by
  rw [zeros_length]
  exact h

theorem tail_fits {u : Nat} (h : u ≤ 64) : u + (64 - u) ≤ 64 := by omega

theorem head_fits : 0 + 56 ≤ 64 := by decide

theorem gap_fits {u : Nat} (h : ¬ 64 - u < 8) : u + (56 - u) ≤ 64 := by omega

/-- the first half of `MD5_Final`: the mark and the zeros -/
def close (ctx : Ctx) : Regs × Buffer :=
  let buf := ctx.buffer.memcpy (used ctx) [0x80] (mark_fits ctx)
  let u := used ctx + 1
  if h : 64 - u < 8 then
    let buf := buf.memcpy u (zeros (64 - u)) (zeros_fits (tail_fits (used_lt ctx)))
    (block ctx.regs buf.bytes, buf.memcpy 0 (zeros 56) (zeros_fits head_fits))
  else (ctx.regs, buf.memcpy u (zeros (56 - u)) (zeros_fits (gap_fits h)))

theorem counters_fit (lo hi : UInt32) : 56 + (put32 false lo ++ put32 false hi).length ≤ 64 := by
  rw [List.length_append, put32_length, put32_length]

def digest (r : Regs) : List UInt8 :=
  put32 false r.a ++ (put32 false r.b ++ (put32 false r.c ++ put32 false r.d))

theorem digest_length (r : Regs) : (digest r).length = 16 := by simp [digest]

def final (ctx : Ctx) : List UInt8 :=
  let closed := close ctx
  let lo := ctx.lo <<< 3
  let buf := closed.2.memcpy 56 (put32 false lo ++ put32 false ctx.hi) (counters_fit lo ctx.hi)
  digest (block closed.1 buf.bytes)

/-! ## the digest of a message -/

/-- the message, the mark, zeros and the length in bits -/
def padded (m : List UInt8) : List UInt8 :=
  m ++ (0x80 :: (zeros ((119 - m.length % 64) % 64) ++
    (put32 false (UInt32.ofNat (8 * m.length)) ++
      put32 false (UInt32.ofNat (8 * m.length / 4294967296)))))

def md5 (m : List UInt8) : List UInt8 :=
  digest (foldBlocks 64 block ((padded m).length / 64) (padded m) regs0)

theorem md5_length (m : List UInt8) : (md5 m).length = 16 := digest_length _

/-- what `ctx` knows after the bytes of `m` -/
structure Absorbed (ctx : Ctx) (m : List UInt8) : Prop where
  lo : ctx.lo = UInt32.ofNat (m.length % 536870912)
  hi : ctx.hi = UInt32.ofNat (m.length / 536870912)
  data : Img.Absorbed 64 block regs0 m ctx.regs (ctx.buffer.bytes.take (used ctx))

variable {ctx : Ctx} {m data : List UInt8}

theorem absorbed_init (buf : Buffer) : Absorbed (init buf) [] :=
  ⟨rfl, rfl, Img.Absorbed.nil (by decide)⟩

theorem lo_toNat (n : Nat) : (UInt32.ofNat (n % 536870912)).toNat = n % 536870912 :=
  UInt32.toNat_ofNat_of_lt' (by show _ < 4294967296; omega)

theorem Absorbed.used_eq (h : Absorbed ctx m) : used ctx = m.length % 64 := by
  unfold used
  rw [h.lo, lo_toNat]
  omega

theorem count_lo (h : Absorbed ctx m) (n : Nat) :
    (count ctx n).lo = UInt32.ofNat ((m.length + n) % 536870912) := by
  show UInt32.ofNat ((ctx.lo.toNat + n) % 536870912) = _
  rw [h.lo, lo_toNat, Nat.mod_add_mod]

/-- a carry is seen by `lo` becoming smaller -/
theorem count_hi (h : Absorbed ctx m) (n : Nat) :
    (count ctx n).hi = UInt32.ofNat ((m.length + n) / 536870912) := by
  have hc : (count ctx n).lo < ctx.lo ↔ (m.length + n) % 536870912 < m.length % 536870912 := by
    rw [UInt32.lt_iff_toNat_lt, count_lo h, h.lo, lo_toNat, lo_toNat]
  show (if (count ctx n).lo < ctx.lo then ctx.hi + 1 else ctx.hi) + UInt32.ofNat (n / 536870912) = _
  by_cases hlt : (count ctx n).lo < ctx.lo
  · have := hc.mp hlt
    rw [if_pos hlt, h.hi, show (1 : UInt32) = UInt32.ofNat 1 from rfl, ← UInt32.ofNat_add,
      ← UInt32.ofNat_add]
    congr 1
    omega
  · have : ¬ (m.length + n) % 536870912 < m.length % 536870912 := fun h' => hlt (hc.mpr h')
    rw [if_neg hlt, h.hi, ← UInt32.ofNat_add]
    congr 1
    omega

theorem blocks_absorbed (ctx : Ctx) (h : Img.Absorbed 64 block regs0 m ctx.regs []) :
    Img.Absorbed 64 block regs0 (m ++ data) (blocks ctx data).regs
      ((blocks ctx data).buffer.bytes.take (data.length % 64)) := by
  have hl : (data.take (64 * (data.length / 64))).length = 64 * (data.length / 64) := by
    rw [List.length_take]
    omega
  have hd : (data.drop (64 * (data.length / 64))).length = data.length % 64 := by
    rw [List.length_drop]
    omega
  have h1 := h.blocks (d := data.take (64 * (data.length / 64))) (m := data.length / 64)
    (by rw [hl]; exact Nat.zero_add _)
  have h2 := h1.wait (d := data.drop (64 * (data.length / 64)))
    (by rw [hd]; exact (Nat.zero_add _).symm ▸ Nat.mod_lt _ (by decide))
  rw [List.append_assoc, List.take_append_drop, List.nil_append, List.nil_append] at h2
  have hb := ctx.buffer.take_memcpy (rest_fits data)
  rw [List.take_zero, List.nil_append, hd, Nat.zero_add] at hb
  have hf := foldBlocks_append (f := block) (data.length / 64) _
    (data.drop (64 * (data.length / 64))) ctx.regs hl
  rw [List.take_append_drop] at hf
  show Img.Absorbed 64 block regs0 _ (foldBlocks 64 block (data.length / 64) data ctx.regs)
    ((ctx.buffer.memcpy 0 _ (rest_fits data)).bytes.take _)
  rw [hb, hf]
  exact h2

theorem update_absorbed (h : Absorbed ctx m) (data : List UInt8) :
    Absorbed (update ctx data) (m ++ data) := by
  have hlo := count_lo h data.length
  have hhi := count_hi h data.length
  rw [← List.length_append] at hlo hhi
  have hu : used (count ctx data.length) = (m ++ data).length % 64 := by
    unfold used
    rw [hlo, lo_toNat]
    omega
  have hlt := used_lt ctx
  have hp := h.data
  have hpl : (ctx.buffer.bytes.take (used ctx)).length = used ctx := by
    rw [List.length_take, ctx.buffer.full]
    omega
  have hm := h.used_eq
  rw [List.length_append] at hu
  unfold update
  dsimp only
  split
  · next hz =>
    refine ⟨hlo, hhi, ?_⟩
    show Img.Absorbed 64 block regs0 _ _ (List.take (used (count ctx data.length)) _)
    rw [hu, show (m.length + data.length) % 64 = data.length % 64 by omega]
    refine blocks_absorbed (count ctx data.length) ?_
    rw [hz, List.take_zero] at hp
    exact hp
  · next hz =>
    split
    · next hs =>
      refine ⟨hlo, hhi, ?_⟩
      show Img.Absorbed 64 block regs0 _ ctx.regs (List.take (used (count ctx data.length)) _)
      rw [hu, show (m.length + data.length) % 64 = used ctx + data.length by omega,
        Buffer.take_memcpy]
      exact hp.wait (by rw [hpl]; omega)
    · next hs =>
      have hav : (data.take (64 - used ctx)).length = 64 - used ctx := by
        rw [List.length_take]
        omega
      have hfull := ctx.buffer.take_memcpy (fill_fits ctx data)
      rw [List.take_of_length_le (by rw [Buffer.full]; omega)] at hfull
      have h1 := hp.blocks (d := data.take (64 - used ctx)) (m := 1) (by rw [hpl, hav]; omega)
      refine ⟨hlo, hhi, ?_⟩
      show Img.Absorbed 64 block regs0 _ _ (List.take (used (count ctx data.length)) _)
      rw [hu, show (m.length + data.length) % 64 = (data.drop (64 - used ctx)).length % 64 by
        rw [List.length_drop]
        omega, show m ++ data = (m ++ data.take (64 - used ctx)) ++ data.drop (64 - used ctx) by
        rw [List.append_assoc, List.take_append_drop]]
      refine blocks_absorbed ⟨_, _, block ctx.regs _, _⟩ ?_
      rw [hfull]
      rw [foldBlocks_one (by rw [List.length_append, hpl, hav]; omega)] at h1
      exact h1

/-! ## the end -/

theorem padded_split (m : List UInt8) : padded m = m ++ ((0x80 :: zeros ((119 - m.length % 64) % 64)) ++
    (put32 false (UInt32.ofNat (8 * m.length)) ++
      put32 false (UInt32.ofNat (8 * m.length / 4294967296)))) := rfl

/-- the mark and the zeros end 8 bytes before the end of a block -/
theorem close_absorbed (h : Absorbed ctx m) :
    Img.Absorbed 64 block regs0 (m ++ (0x80 :: zeros ((119 - m.length % 64) % 64)))
      (close ctx).1 ((close ctx).2.bytes.take 56) := by
  have hlt := used_lt ctx
  have hm := h.used_eq
  have hp := h.data
  have hpl : (ctx.buffer.bytes.take (used ctx)).length = used ctx := by
    rw [List.length_take, ctx.buffer.full]
    omega
  have hone : (ctx.buffer.memcpy (used ctx) [0x80] (mark_fits ctx)).bytes.take (used ctx + 1)
      = ctx.buffer.bytes.take (used ctx) ++ [0x80] := ctx.buffer.take_memcpy (mark_fits ctx)
  have hz (buf : Buffer) {u n : Nat} (hn : u + n ≤ 64) := buf.take_memcpy (zeros_fits hn)
  simp only [zeros_length] at hz
  unfold close
  dsimp only
  split
  · next hs =>
    -- the zeros fill this block and go on in the next one
    have hn : (119 - m.length % 64) % 64 = (64 - (used ctx + 1)) + 56 := by omega
    have hfill := hz (ctx.buffer.memcpy (used ctx) [0x80] (mark_fits ctx))
      (tail_fits (used_lt ctx))
    have hnext := hz ((ctx.buffer.memcpy (used ctx) [0x80] (mark_fits ctx)).memcpy (used ctx + 1)
      (zeros (64 - (used ctx + 1))) (zeros_fits (tail_fits (used_lt ctx)))) head_fits
    rw [List.take_of_length_le (by rw [Buffer.full]; omega)] at hfill
    rw [List.take_zero, List.nil_append] at hnext
    have h1 := hp.blocks (d := 0x80 :: zeros (64 - (used ctx + 1))) (m := 1)
      (by rw [hpl, List.length_cons, zeros_length]; omega)
    have h2 := h1.wait (d := zeros 56) (by rw [zeros_length]; decide)
    rw [hn, show zeros (64 - (used ctx + 1) + 56) = zeros (64 - (used ctx + 1)) ++ zeros 56 from
      List.replicate_add .., ← List.cons_append, ← List.append_assoc]
    show Img.Absorbed 64 block regs0 _ (block ctx.regs _) (List.take (0 + 56) _)
    rw [hnext, hfill, hone, List.append_assoc (ctx.buffer.bytes.take _)]
    rw [foldBlocks_one (by rw [List.length_append, hpl, List.length_cons, zeros_length]; omega)] at h2
    exact h2
  · next hs =>
    have hn : (119 - m.length % 64) % 64 = 56 - (used ctx + 1) := by omega
    have hfill := hz (ctx.buffer.memcpy (used ctx) [0x80] (mark_fits ctx)) (gap_fits hs)
    rw [show used ctx + 1 + (56 - (used ctx + 1)) = 56 by omega] at hfill
    show Img.Absorbed 64 block regs0 _ ctx.regs (List.take 56 _)
    rw [hn, hfill, hone, List.append_assoc]
    exact hp.wait (by rw [hpl, List.length_cons, zeros_length]; omega)

/-- **One context** gives the digest of all its data. -/
theorem final_eq (h : Absorbed ctx m) : final ctx = md5 m := by
  have hc := close_absorbed h
  have hl : ((close ctx).2.bytes.take 56).length = 56 := by
    rw [List.length_take, Buffer.full]
    decide
  have hb := (close ctx).2.take_memcpy (counters_fit (ctx.lo <<< 3) ctx.hi)
  rw [List.take_of_length_le (by rw [Buffer.full]; exact Nat.le_refl _)] at hb
  have hlo : ctx.lo <<< 3 = UInt32.ofNat (8 * m.length) := by
    apply UInt32.toNat_inj.mp
    rw [UInt32.toNat_shiftLeft, h.lo, lo_toNat, UInt32.toNat_ofNat', Nat.shiftLeft_eq]
    show m.length % 536870912 * 8 % 4294967296 = 8 * m.length % 4294967296
    omega
  have hhi : ctx.hi = UInt32.ofNat (8 * m.length / 4294967296) := by
    rw [h.hi]
    congr 1
    omega
  have h1 := hc.blocks (d := put32 false (UInt32.ofNat (8 * m.length)) ++
    put32 false (UInt32.ofNat (8 * m.length / 4294967296))) (m := 1)
    (by rw [hl, List.length_append, put32_length, put32_length])
  rw [List.append_assoc, ← padded_split, foldBlocks_one
    (by rw [List.length_append, hl, List.length_append, put32_length, put32_length])] at h1
  unfold final md5
  dsimp only
  rw [hb, ← h1.done, hlo, hhi]

theorem updates_absorbed (h : Absorbed ctx m) (pieces : List (List UInt8)) :
    Absorbed (pieces.foldl update ctx) (m ++ pieces.flatten) := by
  induction pieces generalizing ctx m with
  | nil =>
    rw [List.flatten_nil, List.append_nil]
    exact h
  | cons d pieces ih =>
    rw [List.flatten_cons, ← List.append_assoc]
    exact ih (update_absorbed h d)

/-- **The pieces do not matter.** -/
theorem final_updates (buf : Buffer) (pieces : List (List UInt8)) :
    final (pieces.foldl update (init buf)) = md5 pieces.flatten :=
  final_eq (updates_absorbed (absorbed_init buf) pieces)

/-- the digest of the empty message and of "abc" -/
example : md5 [] = [0xd4, 0x1d, 0x8c, 0xd9, 0x8f, 0x00, 0xb2, 0x04, 0xe9, 0x80, 0x09, 0x98, 0xec,
    0xf8, 0x42, 0x7e] ∧
    md5 [97, 98, 99] = [0x90, 0x01, 0x50, 0x98, 0x3c, 0xd2, 0x4f, 0xb0, 0xd6, 0x96, 0x3f, 0x7d, 0x28,
    0xe1, 0x7f, 0x72] := by decide +kernel

end Md5
