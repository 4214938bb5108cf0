import Firmware.Otrx.RoundTrip
import Firmware.Mtd.Jffs2
import Firmware.Mtd.Rewrite

/-!
# mtd: `fixtrx`

`mtd_fixtrx` of `trx.c` sets the length and the checksum of a TRX header that is on the device, and
`otrx check` looks at both.

* `mtdFixtrx`        the whole function;
* `mtdFixtrx_inv`    what a run that returns has done;
* `check_header`     a header that `otrx check` accepts;
* `fixtrx_check`     it accepts the header after the fix, and nothing else was changed.
-/

set_option linter.unusedVariables false

namespace Mtd.Trx
open Img Word CInt

variable {E : Nat}

def trxMagic : UInt32 := 0x30524448
def trxCrc32DataOffset : UInt64 := 12
def trxCrc32DataSize : UInt64 := 16

/-- `sizeof(struct trx_header)` -/
def trxHeaderLen : Nat := 28

/-- the length is passed on as an `int` -/
def crc32buf (buf : List UInt8) : UInt32 := crc32 0xffffffff (buf.take (wrap buf.length).toNat)

/-- `data_size` as it is set at the beginning -/
def crcSize (erasesize : Nat) (dataSize : UInt64) : UInt64 :=
  if dataSize ≠ 0 then dataSize + trxCrc32DataSize
  else UInt64.ofNat erasesize - trxCrc32DataOffset

def mtdFixtrx (d : Dev E) (offset dataSize : UInt64) : Fixed E :=
  let dataOffset := offset + trxCrc32DataOffset
  let dataSize := crcSize E dataSize
  let blockOffset := blockOffset E offset
  let offset := (offset - blockOffset).toNat
  let len := UInt32.ofNat (dataSize + trxCrc32DataOffset).toNat
  if dataOffset + dataSize > sizeT (mtdsize d) then .exit d
  else
    let firstBlock := pread d E blockOffset.toNat
    if firstBlock.length ≠ E then .exit d
    else
      match load32 false firstBlock offset, load32 false firstBlock (offset + 4) with
      | some magic, some oldLen =>
        if magic ≠ trxMagic then .exit d
        else if oldLen = len then .ret d
        else
          let buf := pread d dataSize.toNat dataOffset.toNat
          if buf.length ≠ dataSize.toNat then .exit d
          else
            match (store32 false firstBlock (offset + 4) len).bind fun blk =>
                store32 false blk (offset + 8) (crc32buf buf) with
            | some blk => rewriteBlock d blockOffset.toNat blk
            | none => .fault
      | _, _ => .fault

/-! ## otrx check -/

/-- a header with the right checksum is accepted -/
theorem check_header {file : List UInt8} {len crc : UInt32}
    (hmagic : load32 false file 0 = some Otrx.trxMagic) (hlen : load32 false file 4 = some len)
    (hcrc : load32 false file 8 = some crc) (h28 : 28 ≤ len.toNat) (hle : len.toNat ≤ file.length)
    (hc : crc = crc32 0xffffffff (slice file 12 (len.toNat - 12))) : Otrx.check file = 0 := by
  have hload : ∀ off, off + 4 ≤ 28 → ∃ w, load32 false file off = some w := by
    intro off ho
    unfold load32 load
    rw [if_pos (by omega)]
    exact ⟨_, rfl⟩
  obtain ⟨o0, h0⟩ := hload 16 (by decide)
  obtain ⟨o1, h1⟩ := hload 20 (by decide)
  obtain ⟨o2, h2⟩ := hload 24 (by decide)
  have hread : Otrx.readHeader file = some ⟨Otrx.trxMagic, len, crc, [o0, o1, o2]⟩ := by
    unfold Otrx.readHeader
    rw [hmagic, hlen, hcrc, h0, h1, h2]
    rfl
  have hloop := Otrx.crcLoop_eq (len.toNat + 1) (file.drop Otrx.trxFlagsOffset)
    (len.toNat - Otrx.trxFlagsOffset) 0xffffffff (by omega)
    (by rw [List.length_drop]; omega)
  have hcrc' : Crc.block Crc.table32 0xffffffff
      ((file.drop Otrx.trxFlagsOffset).take (len.toNat - Otrx.trxFlagsOffset)) = crc := hc.symm
  unfold Otrx.check
  rw [hread]
  simp only [hloop, hcrc']
  rw [if_neg (by simp), if_neg (by unfold Otrx.headerLen; omega), if_neg (by simp),
    if_neg (by simp)]

/-! ## the fix -/

/-- where the header of a run lies, and what the numbers of the run are -/
structure Run (d : Dev E) (offset dataSize : UInt64) (b r n : Nat) : Prop where
  block : b < d.chip.nblocks
  start : (blockOffset E offset).toNat = b * E
  inner : (offset - blockOffset E offset).toNat = r
  header : r + trxHeaderLen ≤ E
  split : offset.toNat = b * E + r
  size : (crcSize E dataSize).toNat = n
  data : (offset + trxCrc32DataOffset).toNat = offset.toNat + 12
  fits : offset.toNat + 12 + n ≤ d.mem.length
  big : 16 ≤ n

theorem run_of_range {k : Nat} (hE : E = 2 ^ k) (d : Dev E) {offset dataSize : UInt64}
    (hhdr : offset.toNat % E + trxHeaderLen ≤ E)
    (hrange : offset.toNat + (if dataSize = 0 then E else dataSize.toNat + trxHeaderLen)
      ≤ d.mem.length) :
    ∃ n, Run d offset dataSize (offset.toNat / E) (offset.toNat % E) n ∧
      n + 12 = if dataSize = 0 then E else dataSize.toNat + trxHeaderLen := by
  have hpos := d.erasesize
  have ht := d.total
  rw [← d.size] at ht
  unfold trxHeaderLen at hhdr hrange ⊢
  have hlt : offset.toNat < d.mem.length := by
    split at hrange <;> omega
  have hb : offset.toNat / E < d.chip.nblocks := by
    rw [Nat.div_lt_iff_lt_mul hpos, ← d.size]
    exact hlt
  have hElt : E < 2 ^ 32 := by
    have := Nat.le_mul_of_pos_left E (Nat.lt_of_le_of_lt (Nat.zero_le _) hb)
    rw [← d.size] at this
    omega
  have hbo := blockOffset_pow hE hElt offset
  have hsplit : offset.toNat = offset.toNat / E * E + offset.toNat % E :=
    (Nat.div_add_mod' _ _).symm
  have hEn : (UInt64.ofNat E).toNat = E := UInt64.toNat_ofNat_of_lt' (Nat.lt_trans hElt (by decide))
  have ho64 : offset.toNat + 12 < 2 ^ 64 := by omega
  have hoff : (offset - blockOffset E offset).toNat = offset.toNat % E := by
    rw [UInt64.toNat_sub_of_le _ _ (by rw [UInt64.le_iff_toNat_le, hbo]; omega), hbo]
    omega
  have hdata : (offset + trxCrc32DataOffset).toNat = offset.toNat + 12 := by
    unfold trxCrc32DataOffset
    rw [UInt64.toNat_add]
    exact Nat.mod_eq_of_lt ho64
  by_cases h0 : dataSize = 0
  · rw [if_pos h0] at hrange ⊢
    refine ⟨E - 12, ⟨hb, hbo, hoff, hhdr, hsplit, ?_, hdata, by omega, by omega⟩, by omega⟩
    unfold crcSize trxCrc32DataOffset
    rw [if_neg (not_not.mpr h0), UInt64.toNat_sub_of_le _ _ (by
      rw [UInt64.le_iff_toNat_le, hEn]
      show 12 ≤ E
      omega), hEn]
    rfl
  · rw [if_neg h0] at hrange ⊢
    refine ⟨dataSize.toNat + 16, ⟨hb, hbo, hoff, hhdr, hsplit, ?_, hdata, by omega, by omega⟩,
      by omega⟩
    unfold crcSize trxCrc32DataSize
    rw [if_pos h0, UInt64.toNat_add]
    exact Nat.mod_eq_of_lt (by show dataSize.toNat + 16 < 2 ^ 64; omega)

section
variable {d : Dev E} {offset dataSize : UInt64} {b r n : Nat} (hr : Run d offset dataSize b r n)
include hr

/-- `STORE32_LE(data_size + 12)` -/
theorem Run.len :
    UInt32.ofNat (crcSize E dataSize + trxCrc32DataOffset).toNat = UInt32.ofNat (n + 12) := by
  have ht := d.total
  have hf := hr.fits
  rw [d.size] at hf
  rw [UInt64.toNat_add, hr.size]
  congr 1
  exact Nat.mod_eq_of_lt (by show n + 12 < 2 ^ 64; omega)

/-- **A run that returns** found the length set, or wrote the header. -/
theorem mtdFixtrx_inv {d' : Dev E} (h : mtdFixtrx d offset dataSize = .ret d') :
    ¬ offset + trxCrc32DataOffset + crcSize E dataSize > sizeT (mtdsize d) ∧ E ≤ maxRw ∧
    load32 false (slice d.mem (b * E) E) r = some trxMagic ∧
    ((load32 false (slice d.mem (b * E) E) (r + 4) = some (UInt32.ofNat (n + 12)) ∧ d' = d) ∨
      (n ≤ maxRw ∧ rewriteBlock d (b * E) (poke (slice d.mem (b * E) E) (r + 4)
        (put32 false (UInt32.ofNat (n + 12)) ++
          put32 false (crc32buf (slice d.mem (offset.toNat + 12) n)))) = .ret d')) := by
  have hhdr := hr.header
  unfold trxHeaderLen at hhdr
  unfold mtdFixtrx at h
  simp only [hr.start, hr.inner, hr.len, hr.size, hr.data] at h
  split at h
  · exact absurd h (by simp)
  next hcheck =>
  refine ⟨hcheck, ?_⟩
  split at h
  · exact absurd h (by simp)
  next hlen =>
  rw [not_not] at hlen
  obtain ⟨hp, hErw⟩ := pread_eq hlen
  refine ⟨hErw, ?_⟩
  rw [hp] at h hlen
  split at h
  · next magic oldLen hm ho =>
    split at h
    · exact absurd h (by simp)
    next hmagic =>
    rw [not_not.mp hmagic] at hm
    refine ⟨hm, ?_⟩
    split at h
    · next hfixed => exact .inl ⟨by rw [ho, hfixed], (Fixed.ret.inj h).symm⟩
    split at h
    · exact absurd h (by simp)
    next hdata =>
    obtain ⟨hp', hn⟩ := pread_eq (not_not.mp hdata)
    rw [hp'] at h
    refine .inr ⟨hn, ?_⟩
    -- both words are written into the buffer
    have hs : (slice d.mem (b * E) E).length = E := hlen
    have h1 : store32 false (slice d.mem (b * E) E) (r + 4) (UInt32.ofNat (n + 12))
        = some (poke (slice d.mem (b * E) E) (r + 4) (put32 false (UInt32.ofNat (n + 12)))) :=
      store_eq_some.mpr ⟨by rw [put32_length, hs]; omega, rfl⟩
    have h2 : ∀ w, store32 false (poke (slice d.mem (b * E) E) (r + 4)
        (put32 false (UInt32.ofNat (n + 12)))) (r + 8) w
        = some (poke (slice d.mem (b * E) E) (r + 4)
          (put32 false (UInt32.ofNat (n + 12)) ++ put32 false w)) := by
      intro w
      have ha := poke_append (slice d.mem (b * E) E) (put32 false (UInt32.ofNat (n + 12)))
        (put32 false w) (r + 4) (by rw [put32_length, hs]; omega)
      rw [put32_length, Nat.add_assoc] at ha
      rw [← ha]
      refine store_eq_some.mpr ⟨?_, rfl⟩
      rw [poke_length _ _ _ (by rw [put32_length, hs]; omega), put32_length, hs]
      omega
    rw [h1, Option.bind_some, h2] at h
    exact h
  · exact absurd h (by simp)

/-- a header whose length is set is left alone -/
theorem mtdFixtrx_fixed (hcheck : ¬ offset + trxCrc32DataOffset + crcSize E dataSize
      > sizeT (mtdsize d)) (hE : E ≤ maxRw)
    (hmagic : load32 false (slice d.mem (b * E) E) r = some trxMagic)
    (hlen : load32 false (slice d.mem (b * E) E) (r + 4) = some (UInt32.ofNat (n + 12))) :
    mtdFixtrx d offset dataSize = .ret d := by
  have hle := block_le d hr.block
  rw [Nat.add_mul, Nat.one_mul] at hle
  have hp : pread d E (b * E) = slice d.mem (b * E) E := pread_of_le d hE _
  unfold mtdFixtrx
  simp only [hr.start, hr.inner, hr.len]
  rw [if_neg hcheck, hp, if_neg (not_not.mpr (slice_length _ _ _ hle)), hmagic, hlen]
  simp only
  rw [if_neg (by simp), if_pos trivial]

end

theorem crc32buf_eq {buf : List UInt8} (h : buf.length ≤ maxRw) :
    crc32buf buf = crc32 0xffffffff buf := by
  unfold crc32buf
  rw [wrap_of_inRange (by unfold inRange; unfold maxRw at h; omega), Int.toNat_natCast,
    List.take_length]

/-- the two words in the header -/
theorem load_words {m : List UInt8} {o : Nat} {magic len crc : UInt32} (h : o + 12 ≤ m.length)
    (hm : load32 false m o = some magic) :
    load32 false (poke m (o + 4) (put32 false len ++ put32 false crc)) o = some magic ∧
    load32 false (poke m (o + 4) (put32 false len ++ put32 false crc)) (o + 4) = some len ∧
    load32 false (poke m (o + 4) (put32 false len ++ put32 false crc)) (o + 8) = some crc := by
  have hd : (put32 false len ++ put32 false crc).length = 8 := by
    rw [List.length_append, put32_length, put32_length]
  have ht : (m.take (o + 4)).length = o + 4 := by
    rw [List.length_take]
    omega
  have hp : poke m (o + 4) (put32 false len ++ put32 false crc) = m.take (o + 4) ++
      (put32 false len ++ (put32 false crc ++ m.drop (o + 12))) := by
    unfold poke
    rw [hd, List.append_assoc]
  refine ⟨?_, ?_, ?_⟩
  · unfold load32 load at hm ⊢
    rw [poke_length _ _ _ (by rw [hd]; omega), slice_poke_before _ _ _ _ _ (by omega) (by omega)]
    exact hm
  · rw [hp]
    exact load32_split rfl ht
  · rw [hp, ← List.append_assoc]
    exact load32_split rfl (by rw [List.length_append, ht, put32_length])

/-- **The fixed header**: `otrx check` accepts it, only its length and its checksum were written,
and a second run does nothing. -/
theorem fixtrx_check {k : Nat} (hE : E = 2 ^ k) (d d' : Dev E) {offset dataSize : UInt64}
    (hhdr : offset.toNat % E + trxHeaderLen ≤ E)
    (hrange : offset.toNat + (if dataSize = 0 then E else dataSize.toNat + trxHeaderLen)
      ≤ d.mem.length)
    (h : mtdFixtrx d offset dataSize = .ret d') (hw : d'.log ≠ d.log) :
    Otrx.checkAt offset.toNat d'.mem = 0 ∧ d'.mem.length = d.mem.length ∧
      (∀ i, i < offset.toNat + 4 ∨ offset.toNat + 12 ≤ i → d'.mem[i]? = d.mem[i]?) ∧
      mtdFixtrx d' offset dataSize = .ret d' := by
  obtain ⟨n, hr, hn⟩ := run_of_range hE d hhdr hrange
  have hle := block_le d hr.block
  have hh := hr.header
  have hs := hr.split
  have hf := hr.fits
  have ht := d.total
  rw [← d.size] at ht
  rw [Nat.add_mul, Nat.one_mul] at hle
  unfold trxHeaderLen at hh
  obtain ⟨hcheck, hErw, hmagic, ⟨-, rfl⟩ | ⟨hrw, h'⟩⟩ := mtdFixtrx_inv hr h
  · exact absurd rfl hw
  -- the device holds the two words, at their absolute position
  obtain ⟨hmem, hchip, -⟩ := rewriteBlock_ret hr.block (by
    rw [poke_length _ _ _ (by
      rw [slice_length _ _ _ hle, List.length_append, put32_length, put32_length]
      omega), slice_length _ _ _ hle]) h'
  rw [poke_slice _ _ _ _ _ (by rw [List.length_append, put32_length, put32_length]; omega) hle,
    ← Nat.add_assoc, ← hs] at hmem
  generalize hC : crc32buf (slice d.mem (offset.toNat + 12) n) = crc at hmem
  have hlen : d'.mem.length = d.mem.length := by
    rw [hmem]
    refine poke_length _ _ _ ?_
    rw [List.length_append, put32_length, put32_length]
    omega
  have habs : ∀ {m : List UInt8} {k}, k + 4 ≤ E → m.length = d.mem.length →
      load32 false (slice m (offset.toNat / E * E) E) k
        = load32 false m (offset.toNat / E * E + k) := by
    intro m k hk hm
    unfold load32
    rw [load_slice hk (by rw [hm]; exact hle)]
  rw [habs (by omega) rfl, ← hs] at hmagic
  obtain ⟨w1, w2, w3⟩ := @load_words d.mem offset.toNat trxMagic (UInt32.ofNat (n + 12)) crc
    (by omega) hmagic
  rw [← hmem] at w1 w2 w3
  have hL : (UInt32.ofNat (n + 12)).toNat = n + 12 := UInt32.toNat_ofNat_of_lt' (by
    show n + 12 < 4294967296
    omega)
  have hdata : slice d'.mem (offset.toNat + 12) n = slice d.mem (offset.toNat + 12) n := by
    rw [hmem]
    refine slice_poke_after _ _ _ _ _ ?_ ?_
    · rw [List.length_append, put32_length, put32_length]
    · rw [List.length_append, put32_length, put32_length]
      omega
  refine ⟨?_, hlen, fun i hi => ?_, ?_⟩
  · have hdrop : ∀ k, load32 false (d'.mem.drop offset.toNat) k
        = load32 false d'.mem (offset.toNat + k) := by
      intro k
      unfold load32
      rw [load_drop (by omega)]
    have hb := hr.big
    refine check_header ((hdrop 0).trans w1) ((hdrop 4).trans w2) ((hdrop 8).trans w3)
      (by rw [hL]; omega) (by rw [hL, List.length_drop]; omega) ?_
    rw [← hC, crc32buf_eq (by rw [slice_length _ _ _ hf]; exact hrw), hL, Nat.add_sub_cancel]
    unfold slice at hdata ⊢
    rw [List.drop_drop, hdata]
  · rw [hmem]
    refine poke_getElem? _ _ _ _ ?_ ?_ <;>
      rw [List.length_append, put32_length, put32_length] <;> omega
  · have hr' : Run d' offset dataSize (offset.toNat / E) (offset.toNat % E) n :=
      { hr with block := hchip ▸ hr.block, fits := hlen ▸ hr.fits }
    refine mtdFixtrx_fixed hr' ?_ hErw ?_ ?_
    · unfold mtdsize at hcheck ⊢
      rw [hlen]
      exact hcheck
    · rw [habs (by omega) hlen, ← hs]
      exact w1
    · rw [habs (by omega) hlen, ← Nat.add_assoc, ← hs]
      exact w2

/-- one block of 64 bytes: a header without a length, and zeros -/
def trxDev : Dev 64 where
  chip := ⟨1, false, fun _ => false, fun _ => false, fun _ => false⟩
  erasesize := by decide
  total := by decide
  mem := put32 false trxMagic ++ List.replicate 60 0
  size := rfl
  pos := 0
  log := []

/-- what happened to the device when the program returned -/
def events : Fixed E → Option (List Event)
  | .ret d => some d.log
  | _ => none

theorem fixtrx_check_zero : ∃ d', mtdFixtrx trxDev 0 0 = .ret d' ∧
    Otrx.checkAt 0 d'.mem = 0 ∧ d'.mem.length = trxDev.mem.length ∧
    (∀ i, i < 4 ∨ 12 ≤ i → d'.mem[i]? = trxDev.mem[i]?) ∧ mtdFixtrx d' 0 0 = .ret d' := by
  have he : events (mtdFixtrx trxDev 0 0) = some [.erase 0, .write 0] := by decide +kernel
  cases h : mtdFixtrx trxDev 0 0 with
  | ret d' =>
    rw [h] at he
    have hlog : d'.log = [.erase 0, .write 0] := Option.some.inj he
    exact ⟨d', rfl, fixtrx_check (k := 6) rfl trxDev d' (by decide) (by decide) h
      (by rw [hlog]; exact nofun)⟩
  | exit d' =>
    rw [h] at he
    exact absurd he (by simp [events])
  | fault =>
    rw [h] at he
    exact absurd he (by simp [events])

end Mtd.Trx
