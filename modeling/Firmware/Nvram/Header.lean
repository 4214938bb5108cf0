import Firmware.Nvram.RoundTrip

/-!
# nvram: the header after a commit

* `commit_sdram`   the SDRAM numbers stand in the header and in four variables: when they agree
                   after a commit, and when a variable keeps another text;
* `doInfo`         `nvram info`; `commit_crc` says that it computes the CRC8 a commit stored.
-/

set_option linter.unusedVariables false

namespace Nvram
open Img Word CStr

variable {host : Host}

/-! ## words -/

/-- the upper half of `crc_ver_init` and of `config_refresh` -/
theorem toNat_init_word {v : UInt32} (hv : v.toNat < 65536) (c : UInt8) :
    ((nvramVersion <<< 8 ||| v <<< 16) ||| c.toUInt32).toNat = 65536 * v.toNat + 256 + c.toNat := by
  have hc := c.toNat_lt
  have e1 : (nvramVersion <<< 8 : UInt32).toNat = 256 := by decide
  have e2 : (v <<< 16).toNat = v.toNat <<< 16 := by
    rw [UInt32.toNat_shiftLeft]
    exact Nat.mod_eq_of_lt (by rw [Nat.shiftLeft_eq]; show _ * 65536 < _; omega)
  rw [UInt32.toNat_or, UInt32.toNat_or, e1, e2, UInt8.toNat_toUInt32]
  have h1 : v.toNat <<< 16 + (256 + c.toNat) = v.toNat <<< 16 ||| (256 + c.toNat) :=
    Nat.shiftLeft_add_eq_or_of_lt (by omega) _
  have h2 : 1 <<< 8 + c.toNat = 1 <<< 8 ||| c.toNat := Nat.shiftLeft_add_eq_or_of_lt (by omega) _
  rw [Nat.or_comm 256, Nat.or_assoc, show 256 ||| c.toNat = 256 + c.toNat from h2.symm, ← h1,
    Nat.shiftLeft_eq]
  omega

theorem toNat_halves {a b : UInt32} (ha : a.toNat < 65536) (hb : b.toNat < 65536) :
    (a ||| b <<< 16).toNat = 65536 * b.toNat + a.toNat := by
  have e : (b <<< 16).toNat = b.toNat <<< 16 := by
    rw [UInt32.toNat_shiftLeft]
    exact Nat.mod_eq_of_lt (by rw [Nat.shiftLeft_eq]; show _ * 65536 < _; omega)
  rw [UInt32.toNat_or, e, Nat.or_comm, ← Nat.shiftLeft_add_eq_or_of_lt (by omega), Nat.shiftLeft_eq]
  omega

theorem toNat_low16 (w : UInt32) : (low16 w).toNat = w.toNat % 65536 := by
  unfold low16
  rw [UInt32.toNat_and]
  exact Nat.and_two_pow_sub_one_eq_mod w.toNat 16

/-! ## the SDRAM numbers -/

/-- the numbers that stand in the header and in a variable -/
inductive Sdram where
  | init
  | config
  | refresh
  | ncdl
deriving DecidableEq

namespace Sdram

def var : Sdram → CStr
  | init => nameInit
  | config => nameConfig
  | refresh => nameRefresh
  | ncdl => nameNcdl

/-- the number in `crc_ver_init`, `config_refresh` and `config_ncdl` -/
def field (s : Sdram) (cvi cr cn : UInt32) : UInt32 :=
  match s with
  | init => cvi >>> 16
  | config => cr &&& 0xffff
  | refresh => cr >>> 16 &&& 0xffff
  | ncdl => cn

/-- what the header has room for -/
def trunc (s : Sdram) (w : UInt32) : UInt32 :=
  match s with
  | ncdl => w
  | _ => low16 w

/-- what a commit writes when one of the variables is missing -/
def preset : Sdram → UInt32
  | init => sdramInit
  | config => sdramConfig
  | refresh => sdramRefresh
  | ncdl => 0

/-- the digits `_nvram_rehash` prints -/
def width : Sdram → Nat
  | ncdl => 8
  | _ => 4

end Sdram

/-- the number in the header -/
def headerField (h : Handle host) (s : Sdram) : Option UInt32 := do
  let cvi ← load32 host.big h.area 8
  let cr ← load32 host.big h.area 12
  let cn ← load32 host.big h.area 16
  some (s.field cvi cr cn)

theorem Sdram.mem (s : Sdram) : s.var ∈ sdramNames := by
  cases s <;> decide

theorem Sdram.sdramDefault (s : Sdram) (cvi cr cn : UInt32) :
    Nvram.sdramDefault cvi cr cn s.var = some (hex0x s.width (s.field cvi cr cn).toNat) := by
  cases s <;> rfl

theorem Sdram.field_lt (s : Sdram) (cvi cr cn : UInt32) : (s.field cvi cr cn).toNat < 16 ^ s.width := by
  have h1 := cvi.toNat_lt
  have h2 := cn.toNat_lt
  have hl (w : UInt32) : (w &&& 0xffff).toNat < 65536 := by
    have := toNat_low16 w
    unfold low16 at this
    omega
  cases s with
  | init =>
    show (cvi >>> 16).toNat < 65536
    rw [UInt32.toNat_shiftRight, Nat.shiftRight_eq_div_pow]
    show cvi.toNat / 65536 < 65536
    omega
  | config => exact hl cr
  | refresh => exact hl _
  | ncdl => exact h2

/-- a variable taken from the header reads as the number there -/
theorem Sdram.strtoul_default (host : Host) (s : Sdram) (cvi cr cn : UInt32) :
    s.trunc (strtoul host.ulongMax (hex0x s.width (s.field cvi cr cn).toNat)) = s.field cvi cr cn := by
  have hlt := s.field_lt cvi cr cn
  have hw : 1 ≤ s.width := by cases s <;> decide
  have hmax : (s.field cvi cr cn).toNat ≤ host.ulongMax :=
    Nat.le_trans (Nat.le_of_lt_succ (s.field cvi cr cn).toNat_lt) host.le_ulongMax
  rw [strtoul_hex0x hw hlt hmax, UInt32.ofNat_toNat]
  refine UInt32.toNat_inj.mp ?_
  cases s with
  | ncdl => rfl
  | init | config | refresh =>
    show (low16 _).toNat = _
    rw [toNat_low16]
    exact Nat.mod_eq_of_lt hlt

/-- all variables are there -/
def SdramSet (h : Handle host) : Prop := ∀ s : Sdram, nvramGet h s.var ≠ none

/-- the three words of a commit -/
theorem sdramWords_cases (h : Handle host) :
    (SdramSet h ∧ ∃ v : Sdram → CStr, (∀ s, nvramGet h s.var = some (v s)) ∧
      sdramWords h = (nvramVersion <<< 8 ||| low16 (strtoul host.ulongMax (v .init)) <<< 16,
        low16 (strtoul host.ulongMax (v .config)) ||| low16 (strtoul host.ulongMax (v .refresh)) <<< 16,
        strtoul host.ulongMax (v .ncdl))) ∨
    (¬ SdramSet h ∧ sdramWords h = (nvramVersion <<< 8 ||| sdramInit <<< 16,
      sdramConfig ||| sdramRefresh <<< 16, 0)) := by
  by_cases hs : SdramSet h
  · refine .inl ⟨hs, fun s => (nvramGet h s.var).get (Option.isSome_iff_ne_none.mpr (hs s)),
      fun s => (Option.some_get _).symm, ?_⟩
    obtain ⟨i, hi⟩ := Option.ne_none_iff_exists'.mp (hs .init)
    obtain ⟨c, hc⟩ := Option.ne_none_iff_exists'.mp (hs .config)
    obtain ⟨r, hr⟩ := Option.ne_none_iff_exists'.mp (hs .refresh)
    obtain ⟨n, hn⟩ := Option.ne_none_iff_exists'.mp (hs .ncdl)
    simp only [hi, hc, hr, hn, Option.get_some]
    unfold sdramWords
    rw [show nvramGet h nameInit = some i from hi, show nvramGet h nameConfig = some c from hc,
      show nvramGet h nameRefresh = some r from hr, show nvramGet h nameNcdl = some n from hn]
  · refine .inr ⟨hs, ?_⟩
    unfold sdramWords
    split
    · next i c r n hi hc hr hn =>
      refine absurd (fun s => ?_) hs
      cases s with
      | init => exact fun e => by rw [show nvramGet h nameInit = none from e] at hi; cases hi
      | config => exact fun e => by rw [show nvramGet h nameConfig = none from e] at hc; cases hc
      | refresh => exact fun e => by rw [show nvramGet h nameRefresh = none from e] at hr; cases hr
      | ncdl => exact fun e => by rw [show nvramGet h nameNcdl = none from e] at hn; cases hn
    · rfl

theorem Sdram.field_words (s : Sdram) {i c r : UInt32} (n : UInt32) (crc : UInt8)
    (hi : i.toNat < 65536) (hc : c.toNat < 65536) (hr : r.toNat < 65536) :
    s.field ((nvramVersion <<< 8 ||| i <<< 16) ||| crc.toUInt32) (c ||| r <<< 16) n =
      match s with
      | init => i
      | config => c
      | refresh => r
      | ncdl => n := by
  have hcrc := crc.toNat_lt
  have hw := toNat_init_word hi crc
  have hcr := toNat_halves hc hr
  refine UInt32.toNat_inj.mp ?_
  cases s with
  | init =>
    simp only [field]
    rw [UInt32.toNat_shiftRight, Nat.shiftRight_eq_div_pow, hw]
    show _ / 65536 = _
    omega
  | config =>
    show (low16 _).toNat = c.toNat
    rw [toNat_low16, hcr]
    omega
  | refresh =>
    show (low16 ((c ||| r <<< 16) >>> 16)).toNat = r.toNat
    rw [toNat_low16, UInt32.toNat_shiftRight, Nat.shiftRight_eq_div_pow, hcr]
    show _ / 65536 % 65536 = _
    omega
  | ncdl => rfl

theorem low16_lt (w : UInt32) : (low16 w).toNat < 65536 := by
  rw [toNat_low16]
  exact Nat.mod_lt _ (by decide)

/-- the numbers in the header of a commit -/
theorem HeaderWords.field {h : Handle host} {z : List UInt8} {cvi cr cn : UInt32}
    (hw : HeaderWords h z cvi cr cn) (s : Sdram) :
    (SdramSet h → ∀ v, nvramGet h s.var = some v →
      s.field cvi cr cn = s.trunc (strtoul host.ulongMax v)) ∧
    (¬ SdramSet h → s.field cvi cr cn = s.preset) := by
  obtain ⟨w, hw, rfl⟩ := hw
  rcases sdramWords_cases h with ⟨hs, v, hv, e⟩ | ⟨hs, e⟩
  · obtain ⟨rfl, hcc⟩ := Prod.mk.inj (e.symm.trans hw)
    obtain ⟨rfl, rfl⟩ := Prod.mk.inj hcc
    refine ⟨fun _ u hu => ?_, fun hn => absurd hs hn⟩
    rw [hv] at hu
    rw [s.field_words _ _ (low16_lt _) (low16_lt _) (low16_lt _), ← Option.some.inj hu]
    cases s <;> rfl
  · obtain ⟨rfl, hcc⟩ := Prod.mk.inj (e.symm.trans hw)
    obtain ⟨rfl, rfl⟩ := Prod.mk.inj hcc
    refine ⟨fun hy => absurd hy hs, fun _ => ?_⟩
    rw [s.field_words _ _ (by decide) (by decide) (by decide)]
    cases s <;> rfl

theorem Committed.area {h h' : Handle host} {z : List UInt8} {cvi cr cn : UInt32} (hr : Ready h)
    (hc : Committed h h' z cvi cr cn) : h'.area = headerBytes host.big (UInt32.ofNat (newLen h))
      cvi cr cn ++ (records (pairs (fitting h)) ++ 0 :: z) := by
  have hoff := hr.offset_le
  unfold Handle.area
  rw [hc.offset, hc.mmap]
  exact List.drop_left' (by rw [List.length_take]; omega)

theorem load32_words {big : Bool} {m r : List UInt8} {len cvi cr cn : UInt32}
    (hm : m = headerBytes big len cvi cr cn ++ r) : load32 big m 8 = some cvi ∧
      load32 big m 12 = some cr ∧ load32 big m 16 = some cn := by
  refine ⟨?_, ?_, ?_⟩
  · exact load32_split (a := put32 big nvramMagic ++ put32 big len)
      (c := put32 big cr ++ (put32 big cn ++ r)) (by simp [hm, headerBytes]) (by simp)
  · exact load32_split (a := put32 big nvramMagic ++ (put32 big len ++ put32 big cvi))
      (c := put32 big cn ++ r) (by simp [hm, headerBytes]) (by simp)
  · exact load32_split (a := put32 big nvramMagic ++ (put32 big len ++ (put32 big cvi
      ++ put32 big cr))) (c := r) (by simp [hm, headerBytes]) (by simp)

theorem Committed.headerField {h h' : Handle host} {z : List UInt8} {cvi cr cn : UInt32}
    (hr : Ready h) (hc : Committed h h' z cvi cr cn) (s : Sdram) :
    headerField h' s = some (s.field cvi cr cn) := by
  obtain ⟨l8, l12, l16⟩ := load32_words (hc.area hr)
  unfold Nvram.headerField
  rw [l8, l12, l16]
  rfl

/-! ## the header and the variables -/

/-- the number in the header is that of the variable -/
def Agrees (h : Handle host) (s : Sdram) : Prop :=
  ∃ v w, nvramGet h s.var = some v ∧ headerField h s = some w ∧
    w = s.trunc (strtoul host.ulongMax v)

/-- a name the parser does not take for one of the four -/
def NoCut (k : CStr) : Prop := ∀ s : Sdram, ¬ s.var.bytes ++ [eqSign] <+: k.bytes

theorem noCut_of_no_eq (k : CStr) (hk : eqSign ∉ k.bytes) : NoCut k := by
  intro s hp
  exact hk (hp.subset (by simp))

/-- what `nvram_get` returns after a commit -/
theorem sdram_get_committed {h h' : Handle host} {cvi cr cn : UInt32} (ht : SoundFor NoCut h.table)
    (hg : ∀ k, nvramGet h' k = parsedGet ((pairs (fitting h)).map recut).reverse cvi cr cn k)
    (s : Sdram) : nvramGet h' s.var = some (hex0x s.width (s.field cvi cr cn).toNat) ∨
      ∃ v, nvramGet h s.var = some v ∧ nvramGet h' s.var = some v := by
  have hf : Chain.find ((pairs (fitting h)).map recut).reverse s.var
      = Chain.find (pairs (fitting h)) s.var := by
    rw [← List.map_reverse, find_recut (sdramNames_no_eq _ s.mem)
      (fun q hq => ht.names q (List.mem_reverse.mp hq) s),
      Chain.find_reverse (pairs_fitting_nodup ht)]
  rw [hg, parsedGet, hf, s.sdramDefault]
  cases hv : Chain.find (pairs (fitting h)) s.var with
  | none => exact .inl rfl
  | some v =>
    have hm := (Chain.find_eq_some (pairs_fitting_nodup ht)).mp hv
    refine .inr ⟨v, (nvramGet_eq_some ht _ v).mpr ?_, rfl⟩
    exact (Chained.get_eq_some _ _ _).mpr ((fitting_sublist h).subset (mem_pairs.mp hm))

/-- **The SDRAM numbers.**  After a commit with all four variables the header agrees with them.
With one missing it holds the presets, and a variable that was there can keep its text. -/
theorem commit_sdram {h h' : Handle host} {r : Int} (hr : Reach NoCut h)
    (e : nvramCommit h = some (r, h')) :
    (SdramSet h → ∀ s, Agrees h' s) ∧
    (¬ SdramSet h → ∀ s, headerField h' s = some s.preset ∧
      (Agrees h' s ∨ ∃ v, nvramGet h s.var = some v ∧ nvramGet h' s.var = some v)) := by
  obtain ⟨h1, ht⟩ := hr.invariant noCut_of_no_eq
  by_cases hc : headerLen ≤ h.space ∧ padEnd h ≤ h.space
  swap
  · rw [(nvramCommit_none ht hc).2] at e
    exact absurd e (by simp)
  obtain ⟨-, o, h₁, z, cvi, cr, cn, -, -, e', hC, hw, hg⟩ := nvramCommit_words h1 ht hc.1 hc.2
  rw [e'] at e
  obtain ⟨-, rfl⟩ := Prod.mk.inj (Option.some.inj e)
  have hdef (s : Sdram) (hs : nvramGet h₁ s.var = some (hex0x s.width (s.field cvi cr cn).toNat)) :
      Agrees h₁ s := ⟨_, _, hs, hC.headerField h1 s, (s.strtoul_default host cvi cr cn).symm⟩
  refine ⟨fun hset s => ?_, fun hset s => ⟨?_, ?_⟩⟩
  · rcases sdram_get_committed ht hg s with hs | ⟨v, hv, hs⟩
    · exact hdef s hs
    · exact ⟨v, _, hs, hC.headerField h1 s, (hw.field s).1 hset v hv⟩
  · rw [hC.headerField h1 s, (hw.field s).2 hset]
  · exact (sdram_get_committed ht hg s).imp (hdef s) id

/-- a blank partition, opened -/
theorem blank_open : ∃ h : Handle littleHost, nvramOpen littleHost somePage blank false
    = some (some h) ∧ h.space = 32768 ∧ ∀ k, nvramGet h k = Chain.find blankVars k := by
  obtain ⟨h, he, hs, hg⟩ := blankBytes_open blank 32747 (by decide) rfl
  exact ⟨h, he, hs, hg⟩

/-- a commit of a small table -/
theorem small_words {p : CStr → Prop} {h : Handle host} (h1 : Ready h) (ht : SoundFor p h.table)
    (l : List (CStr × CStr)) (hl : (l.map Prod.fst).Nodup) (hg : ∀ k, nvramGet h k = Chain.find l k)
    (hs : (l.map fun q => q.1.length + q.2.length + 2).sum + 26 ≤ h.space) :
    h.size + 22 ≤ h.space ∧ ∃ h' z cvi cr cn, nvramCommit h = some (0, h') ∧
      Committed h h' z cvi cr cn ∧ HeaderWords h z cvi cr cn ∧
      ∀ k, nvramGet h' k = parsedGet ((pairs h.table.entries).map recut).reverse cvi cr cn k := by
  have hsz := size_of_get ht l hl hg
  have hs' : h.size + 22 ≤ h.space := by omega
  have hT : sizes (fitting h) + 26 ≤ h.space := by rw [sizes_fitting_all hs']; omega
  have e20 : headerLen = 20 := rfl
  obtain ⟨-, o, h', z, cvi, cr, cn, -, -, he, hC, hw, hget⟩ :=
    nvramCommit_words h1 ht (by omega) (padEnd_le h1 hT)
  rw [fitting_all hs'] at hget
  exact ⟨hs', h', z, cvi, cr, cn, he, hC, hw, hget⟩

/-- … with names free of `=` -/
theorem small_commit {h : Handle host} (hr : Reach (fun k => eqSign ∉ k.bytes) h)
    (l : List (CStr × CStr)) (hl : (l.map Prod.fst).Nodup) (hg : ∀ k, nvramGet h k = Chain.find l k)
    (hs : (l.map fun q => q.1.length + q.2.length + 2).sum + 26 ≤ h.space) :
    ∃ h' z cvi cr cn, nvramCommit h = some (0, h') ∧ Committed h h' z cvi cr cn ∧
      HeaderWords h z cvi cr cn ∧
      ∀ k, nvramGet h' k = (nvramGet h k).or (sdramDefault cvi cr cn k) := by
  obtain ⟨h1, ht⟩ := hr.invariant fun k hk => hk
  obtain ⟨hs', h', z, cvi, cr, cn, he, hC, hw, -⟩ := small_words h1 ht l hl hg hs
  exact ⟨h', z, cvi, cr, cn, he, hC, hw, get_committed hC ht hs'⟩

theorem commit_sdram_blank : ∃ h h' : Handle littleHost, Reach NoCut h ∧
    nvramCommit h = some (0, h') ∧ ∀ s, Agrees h' s := by
  obtain ⟨h, ho, hs, hg⟩ := blank_open
  obtain ⟨h', z, cvi, cr, cn, he, -⟩ := small_commit (.opened ho) blankVars (by decide) hg
    (by rw [hs]; decide)
  refine ⟨h, h', .opened ho, he, (commit_sdram (.opened ho) he).1 fun s => ?_⟩
  rw [hg]
  cases s <;> decide

/-- without `sdram_ncdl` the header says 0x419, and `sdram_init` still 0 -/
theorem commit_sdram_partial : ∃ h h' : Handle littleHost,
    nvramOpen littleHost somePage blank false = some (some h) ∧
    nvramCommit (nvramUnset h nameNcdl).2 = some (0, h') ∧ ¬ Agrees h' .init := by
  obtain ⟨h, ho, hs, hg⟩ := blank_open
  have hR : Reach (fun k => eqSign ∉ k.bytes) (nvramUnset h nameNcdl).2 :=
    .called (.unset nameNcdl) (.opened ho) (show eqSign ∉ nameNcdl.bytes by decide)
  have hg' (k : CStr) : nvramGet (nvramUnset h nameNcdl).2 k = Chain.find (blankVars.take 3) k := by
    rw [get_nvramUnset, hg]
    by_cases hk : k = nameNcdl
    · rw [if_pos hk, hk]
      decide
    · have hk' : ¬ nameNcdl = k := fun e => hk e.symm
      simp [blankVars, Chain.find, hk, hk']
  have hsp : (nvramUnset h nameNcdl).2.space = 32768 := by
    rw [Handle.space_of_frame (frame_nvramUnset _ _), hs]
  obtain ⟨h', z, cvi, cr, cn, he, hC, hw, hget⟩ := small_commit hR (blankVars.take 3) (by decide) hg'
    (by rw [hsp]; decide)
  refine ⟨h, h', ho, he, ?_⟩
  rintro ⟨v, w, hv, hf, hvw⟩
  have hinit : nvramGet h' nameInit = some (hex0x 4 0) := by
    rw [hget, hg']
    rfl
  have hmiss : ¬ SdramSet (nvramUnset h nameNcdl).2 := fun hset => hset .ncdl (by rw [hg']; decide)
  rw [show nvramGet h' Sdram.init.var = some (hex0x 4 0) from hinit] at hv
  rw [hC.headerField (hR.invariant fun k hk => hk).1, (hw.field .init).2 hmiss] at hf
  obtain rfl := Option.some.inj hv
  obtain rfl := Option.some.inj hf
  exact absurd hvw (by decide)

/-- a name that the parser takes for `sdram_config` -/
def nameCut : CStr :=
  lit ['s', 'd', 'r', 'a', 'm', '_', 'c', 'o', 'n', 'f', 'i', 'g', '=', '1'] (by decide)

def noValue : CStr := lit [] (by decide)

/-- the variables of a blank partition and `nameCut` -/
def cutVars : List (CStr × CStr) := (nameCut, noValue) :: blankVars

theorem cutVars_nodup : (cutVars.map Prod.fst).Nodup := by decide

/-- the record of `nameCut` stands behind the one of `sdram_config`, and counts -/
theorem find_cutVars {p : CStr → Prop} {h : Handle littleHost} (ht : SoundFor p h.table)
    (hg : ∀ k, nvramGet h k = Chain.find cutVars k) :
    Chain.find ((pairs h.table.entries).map recut).reverse nameConfig
      = some (recut (nameCut, noValue)).2 := by
  have hentry (q : CStr × CStr) : (q.1, some q.2) ∈ h.table.entries ↔ q ∈ cutVars := by
    rw [← Chained.get_eq_some, ← nvramGet_eq_some ht, hg, Chain.find_eq_some cutVars_nodup]
  have hk : ((pairs h.table.entries).map Prod.fst).Nodup := by
    rw [map_fst_pairs _ ht.values]
    exact h.table.keys_nodup
  have hs := h.table.entries_sublist ((hentry (nameConfig, hex0x 4 0)).mpr (by decide))
    ((hentry (nameCut, noValue)).mpr (by decide)) (by decide)
  have honly : ∀ r ∈ cutVars, (recut r).1 = nameConfig →
      r = (nameConfig, hex0x 4 0) ∨ r = (nameCut, noValue) := by decide
  have hp : [(nameConfig, hex0x 4 0), (nameCut, noValue)].Sublist (pairs h.table.entries) :=
    hs.filterMap fun t : Tuple => t.2.map fun v => (t.1, v)
  refine find_recut_last hk hp (by decide) ?_
  intro r hr
  exact honly r ((hentry r).mp (mem_pairs.mp hr))

/-- all four variables are there, and the header says 0 where `sdram_config` is 1 -/
theorem commit_sdram_cut : ∃ h h' : Handle littleHost, Reach (fun _ => True) h ∧ SdramSet h ∧
    nvramCommit h = some (0, h') ∧ ¬ Agrees h' .config := by
  obtain ⟨h₀, ho, hs, hg₀⟩ := blank_open
  have hR : Reach (fun _ => True) (Op.run (.set nameCut noValue) h₀) := .called _ (.opened ho) trivial
  generalize hh : Op.run (.set nameCut noValue) h₀ = h at hR
  have hsp : h.space = 32768 := by rw [← hh, Handle.space_of_frame (frame_run _ _), hs]
  have hg (k : CStr) : nvramGet h k = Chain.find cutVars k := by
    rw [← hh]
    show nvramGet (nvramSet .ok h₀ nameCut noValue).2 k = _
    rw [get_nvramSet h₀ nameCut noValue k (by rw [hs]; decide), hg₀]
    simp only [cutVars, Chain.find, eq_comm (a := k)]
  obtain ⟨h1, ht⟩ := hR.invariant fun _ _ => trivial
  obtain ⟨-, h', z, cvi, cr, cn, he, hC, hw, hget⟩ := small_words h1 ht cutVars cutVars_nodup hg
    (by rw [hsp]; decide)
  have hset : SdramSet h := by
    intro s
    rw [hg]
    cases s <;> decide
  refine ⟨h, h', hR, hset, he, ?_⟩
  rintro ⟨v, w, hv, hf, hvw⟩
  have hfield := (hw.field .config).1 hset (hex0x 4 0) (by rw [hg]; decide)
  rw [hC.headerField h1, hfield] at hf
  rw [show nvramGet h' Sdram.config.var = _ from hget nameConfig, parsedGet,
    find_cutVars ht hg, Option.some_or] at hv
  obtain rfl := Option.some.inj hv
  obtain rfl := Option.some.inj hf
  exact absurd hvw (by decide)

/-! ## the CRC8 -/

/-- what `nvram info` prints; the percentage is left out -/
structure Info where
  magic : UInt32
  length : UInt32
  offset : Nat
  crc : UInt32
  calculated : UInt8
  version : UInt32
  sdram : Sdram → UInt32
  used : UInt32
  available : UInt32

/-- `do_info`; the CRC8 runs over the last 11 bytes of the header and the data -/
def doInfo (h : Handle host) : Option Info := do
  let len ← load32 host.big h.area 4
  let data ← load h.area crcStartPosition (len - UInt32.ofNat crcStartPosition).toNat
  let magic ← load32 host.big h.area 0
  let cvi ← load32 host.big h.area 8
  let cr ← load32 host.big h.area 12
  let cn ← load32 host.big h.area 16
  some {
    magic := magic
    length := len
    offset := h.offset
    crc := cvi &&& 0xff
    calculated := hndcrc8 data 0xff
    version := cvi >>> 8 &&& 0xff
    sdram := fun s => s.field cvi cr cn
    used := len
    available := UInt32.ofNat h.mmap.length - UInt32.ofNat h.offset - len }

theorem hndcrc8_append (a b : List UInt8) (crc : UInt8) :
    hndcrc8 (a ++ b) crc = hndcrc8 b (hndcrc8 a crc) := List.foldl_append

/-- the word `crc_ver_init` of a commit, before its CRC -/
theorem sdramWords_init {h : Handle host} {w cr cn : UInt32} (e : sdramWords h = (w, cr, cn)) :
    ∃ i : UInt32, i.toNat < 65536 ∧ w = nvramVersion <<< 8 ||| i <<< 16 := by
  rcases sdramWords_cases h with ⟨-, v, -, e'⟩ | ⟨-, e'⟩
  · exact ⟨_, low16_lt _, (Prod.mk.inj (e.symm.trans e')).1⟩
  · exact ⟨sdramInit, by decide, (Prod.mk.inj (e.symm.trans e')).1⟩

/-- the CRC byte is the one the scratch header leaves zero -/
theorem crcHeader_drop {i cr cn len : UInt32} (hi : i.toNat < 65536) (crc : UInt8) :
    (headerBytes false len ((nvramVersion <<< 8 ||| i <<< 16) ||| crc.toUInt32) cr cn).drop
        crcStartPosition
      = (crcHeader false (nvramVersion <<< 8 ||| i <<< 16) cr cn).drop crcStartPosition := by
  have hc := crc.toNat_lt
  have hw := toNat_init_word hi crc
  have hw0 := toNat_init_word hi 0
  rw [show (nvramVersion <<< 8 ||| i <<< 16 ||| UInt8.toUInt32 0) = nvramVersion <<< 8 ||| i <<< 16
    from UInt32.or_zero] at hw0
  have e0 : (0 : UInt8).toNat = 0 := rfl
  rw [e0] at hw0
  have hb : (le32 ((nvramVersion <<< 8 ||| i <<< 16) ||| crc.toUInt32)).drop 1
      = (le32 (nvramVersion <<< 8 ||| i <<< 16)).drop 1 := by
    simp only [le32, List.drop_succ_cons, List.drop_zero]
    rw [hw, hw0, show (65536 * i.toNat + 256 + crc.toNat) / 256 = (65536 * i.toNat + 256 + 0) / 256 by
        omega,
      show (65536 * i.toNat + 256 + crc.toNat) / 65536 = (65536 * i.toNat + 256 + 0) / 65536 by omega,
      show (65536 * i.toNat + 256 + crc.toNat) / 16777216 = (65536 * i.toNat + 256 + 0) / 16777216 by
        omega]
  show (le32 _).drop 1 ++ _ = (le32 _).drop 1 ++ _
  rw [hb]

theorem crc_byte {i : UInt32} (hi : i.toNat < 65536) (crc : UInt8) :
    ((nvramVersion <<< 8 ||| i <<< 16) ||| crc.toUInt32) &&& 0xff = crc.toUInt32 := by
  have hc := crc.toNat_lt
  refine UInt32.toNat_inj.mp ?_
  rw [UInt32.toNat_and, UInt8.toNat_toUInt32]
  show _ &&& (2 ^ 8 - 1) = _
  rw [Nat.and_two_pow_sub_one_eq_mod, toNat_init_word hi crc]
  omega

/-- **The CRC8.**  `nvram info` computes the byte a commit stored. -/
theorem commit_crc {h : Handle host} (hb : host.big = false) (hr : Reach (fun _ => True) h) :
    (newLen h < h.space → ∃ h', nvramCommit h = some (0, h')) ∧
    ∀ r h', nvramCommit h = some (r, h') → newLen h ≤ h.space ∧ ∃ info, doInfo h' = some info ∧
      info.length = UInt32.ofNat (newLen h) ∧ info.crc = info.calculated.toUInt32 := by
  obtain ⟨h1, ht⟩ := hr.invariant fun _ _ => trivial
  have e20 : headerLen = 20 := rfl
  constructor
  · intro hlt
    have hT := (newLen_lt h1).mp hlt
    obtain ⟨-, o, h', z, cvi, cr, cn, -, -, he, -⟩ :=
      nvramCommit_some h1 ht (by omega) (padEnd_le h1 hT)
    exact ⟨h', he⟩
  · intro r h' e
    by_cases hc : headerLen ≤ h.space ∧ padEnd h ≤ h.space
    swap
    · rw [(nvramCommit_none ht hc).2] at e
      exact absurd e (by simp)
    obtain ⟨hlen, o, h₁, z, cvi, cr, cn, -, -, e', hC, ⟨w, hw, hcvi⟩, -⟩ :=
      nvramCommit_words h1 ht hc.1 hc.2
    rw [e'] at e
    obtain ⟨-, rfl⟩ := Prod.mk.inj (Option.some.inj e)
    refine ⟨hlen, ?_⟩
    obtain ⟨i, hi, rfl⟩ := sdramWords_init hw
    have ha := hC.area h1
    obtain ⟨l0, l4⟩ := load32_header ha
    obtain ⟨l8, l12, l16⟩ := load32_words ha
    have hge : 22 ≤ newLen h := by
      unfold newLen roundup4
      omega
    have hsub : (UInt32.ofNat (newLen h) - UInt32.ofNat crcStartPosition).toNat = newLen h - 9 := by
      have hword := newLen_word h1 hlen
      rw [UInt32.toNat_sub_of_le]
      · rw [hword]
        rfl
      · refine UInt32.le_iff_toNat_le.mpr ?_
        rw [hword]
        show 9 ≤ _
        omega
    rw [hb] at ha hcvi
    generalize hd : records (pairs (fitting h)) ++ 0 :: z = data at ha hcvi
    have hlenh := headerBytes_length false (UInt32.ofNat (newLen h)) cvi cr cn
    have hsp : headerLen + data.length = h.space := by
      rw [← hC.space, ← h₁.area_length, ha, List.length_append, hlenh]
    have hload : load h₁.area crcStartPosition (newLen h - 9) =
        some ((headerBytes false (UInt32.ofNat (newLen h)) cvi cr cn).drop crcStartPosition
          ++ data.take (newLen h - headerLen)) := by
      refine load_split (a := (headerBytes false (UInt32.ofNat (newLen h)) cvi cr cn).take
        crcStartPosition) (c := data.drop (newLen h - headerLen)) ?_ ?_ ?_
      · rw [ha, List.append_assoc, List.take_append_drop, ← List.append_assoc,
          List.take_append_drop]
      · rw [List.length_take, hlenh]
        rfl
      · rw [List.length_append, List.length_drop, List.length_take, hlenh]
        show 20 - 9 + min (newLen h - 20) data.length = _
        omega
    unfold doInfo
    simp only [Option.bind_eq_bind, l0, l4, l8, l12, l16, Option.bind_some, hsub, hload]
    refine ⟨_, rfl, rfl, ?_⟩
    show cvi &&& 0xff = _
    rw [hcvi, crc_byte hi, crcHeader_drop hi, hndcrc8_append]
    rfl

theorem commit_crc_blank : ∃ h h' : Handle littleHost, ∃ info, Reach (fun _ => True) h ∧
    nvramCommit h = some (0, h') ∧ doInfo h' = some info ∧
    info.crc = info.calculated.toUInt32 := by
  obtain ⟨h, ho, hs, hg⟩ := blank_open
  obtain ⟨h', z, cvi, cr, cn, he, -⟩ := small_commit (.opened ho) blankVars (by decide) hg
    (by rw [hs]; decide)
  obtain ⟨-, info, hi, -, hc⟩ := (commit_crc (h := h) rfl (.opened ho)).2 0 h' he
  exact ⟨h, h', info, .opened ho, he, hi, hc⟩

end Nvram
