import Firmware.Map.Prefix

/-!
# mapcalc: ranges

The shifts and the copies of bits that `mapcalc` makes for one rule, in their order, and whether their
counts are those of C.

* `parseRule`         the options of a rule;
* `Op`, `InRange`     a shift or a copy, and when it is allowed;
* `opsPd`, `opsRule`  the operations for one rule;
* `Sound`             the lengths with which they all are;
* `inRange_iff`       the operations of a rule that is not skipped.
-/

set_option linter.unusedVariables false

namespace MapCalc
open Img Bits

/-! ## options -/

/-- the value of an option: what `strtoul` returns, in an `int`, and whether it sets `errno` -/
structure Num where
  intval : Int
  errno : Bool
  range : CInt.inRange intval

/-- `inet_pton`; `none` is an address that it does not take -/
def Pton (n : Nat) : Type := Option { a : List UInt8 // a.length = n }

inductive Opt where
  | type (lw4o6 : Bool)
  | fmr
  | ealen (n : Num)
  | prefix4len (n : Num)
  | prefix6len (n : Num)
  | ipv4prefix (a : Pton 4)
  | ipv6prefix (a : Pton 16)
  | pd (a : Pton 16)
  | offset (n : Num)
  | psidlen (n : Num)
  | pdlen (n : Num)
  | psid (n : Num)
  | other

def setOption (r : Rule) : Opt → Rule
  | .type lw4o6 => { r with lw4o6 := lw4o6 }
  | .fmr => { r with fmr := true }
  | .ealen n => if h : n.intval ≤ 48 ∧ n.errno = false then { r with ealen := n.intval, hEalen := h.1 } else r
  | .prefix4len n =>
    if h : n.intval ≤ 32 ∧ n.errno = false then { r with prefix4len := n.intval, hPrefix4len := h.1 } else r
  | .prefix6len n =>
    if h : n.intval ≤ 128 ∧ n.errno = false then { r with prefix6len := n.intval, hPrefix6len := h.1 } else r
  | Opt.ipv4prefix none => r
  | Opt.ipv4prefix (some a) => { r with ipv4prefix := a.1, hIpv4prefix := a.2 }
  | Opt.ipv6prefix none => r
  | Opt.ipv6prefix (some a) => { r with ipv6prefix := a.1 }
  | .pd none => r
  | .pd (some a) => { r with pd := a.1, hPd := a.2 }
  | .offset n => if h : n.intval ≤ 16 ∧ n.errno = false then { r with offset := n.intval, hOffset := h.1 } else r
  | .psidlen n =>
    if h : n.intval ≤ 16 ∧ n.errno = false then { r with psidlen := n.intval, hPsidlen := h.1 } else r
  | .pdlen n => if n.intval ≤ 128 ∧ n.errno = false then { r with pdlen := n.intval } else r
  | .psid n =>
    if h : n.intval ≤ 65535 ∧ n.errno = false then { r with psid := n.intval, hPsid := ⟨n.range.1, h.1⟩ }
    else r
  | .other => r

theorem anyAddr6_length : (List.replicate 16 (0 : UInt8)).length = 16 := rfl

theorem noPrefix6len : (-1 : Int) ≤ 128 := by decide

def noOptions : Rule where
  hEalen := noEalen
  hPrefix4len := noPrefix4len
  hPrefix6len := noPrefix6len
  hOffset := noOffset
  hPsidlen := noOffset
  hPsid := noPsid
  hIpv4prefix := anyAddr_length
  hPd := anyAddr6_length

def parseRule (opts : List Opt) : Rule := opts.foldl setOption noOptions

/-- what the options keep besides the bounds in `Rule` -/
structure Parsed (r : Rule) : Prop where
  pdlen : r.pdlen ≤ 128
  ipv6prefix : r.ipv6prefix.length = 16

theorem Parsed.setOption {r : Rule} (h : Parsed r) (o : Opt) : Parsed (setOption r o) := by
  obtain ⟨h1, h2⟩ := h
  cases o with
  | pdlen n =>
    unfold MapCalc.setOption
    dsimp only
    split
    · next hn => exact ⟨hn.1, h2⟩
    · exact ⟨h1, h2⟩
  | ipv6prefix a =>
    cases a with
    | none => exact ⟨h1, h2⟩
    | some a => exact ⟨h1, a.2⟩
  | ipv4prefix a | pd a =>
    cases a with
    | none => exact ⟨h1, h2⟩
    | some a => exact ⟨h1, h2⟩
  | type _ | fmr | other => exact ⟨h1, h2⟩
  -- a bound of `Rule`, and nothing else
  | ealen n | prefix4len n | prefix6len n | offset n | psidlen n | psid n =>
    unfold MapCalc.setOption
    dsimp only
    split
    · exact ⟨h1, h2⟩
    · exact ⟨h1, h2⟩

theorem parsed_parseRule (opts : List Opt) : Parsed (parseRule opts) := by
  have hfold : ∀ (opts : List Opt) (r : Rule), Parsed r → Parsed (opts.foldl setOption r) := by
    intro opts
    induction opts with
    | nil => exact fun r h => h
    | cons o opts ih => exact fun r h => ih _ (h.setOption o)
  exact hfold opts noOptions ⟨by decide, rfl⟩

/-! ## operations -/

/-- a shift by an amount, or a comparison or a copy of bits; `dest` is the size of what
`bmemcpys64` writes to -/
inductive Op where
  | shift (amount : Int)
  | bmemcmp (bits : Int)
  | bmemcpy (bits : Int)
  | bmemcpys64 (dest : Nat) (frombits nbits : Int)

/-- `bmemcpys64` reads up to byte `(frombits + nbits) / 8` of a prefix, into 8 bytes -/
def Op.InRange : Op → Prop
  | .shift n => 0 ≤ n ∧ n ≤ 31
  | .bmemcmp n => 0 ≤ n ∧ n ≤ 128
  | .bmemcpy n => 0 ≤ n ∧ n ≤ 128
  | .bmemcpys64 dest f n => 0 ≤ f ∧ 0 ≤ n ∧ (f + n) / 8 < 16 ∧ (f + n) / 8 - f / 8 + 1 ≤ 8 ∧ n ≤ 8 * dest

/-- `match_prefix`, for one prefix -/
def opsOne (r : Rule) (pd p : List UInt8 × Int) : List Op :=
  let mask := if r.lw4o6 ∧ p.2 = 128 then 64 else p.2
  let longer := pd.2 < mask && mask ≥ r.prefix6len
  let shorter := r.lw4o6 && pd.2 < r.prefix6len && mask < r.prefix6len
  (if longer then [.bmemcmp r.prefix6len] else []) ++
    if sameBits longer p.1 r.ipv6prefix r.prefix6len = some true then [.bmemcpy mask]
    else (if shorter then [.bmemcmp mask] else []) ++
      if sameBits shorter p.1 r.ipv6prefix mask = some true then [.bmemcpy r.prefix6len] else []

def opsPrefix (r : Rule) : List (List UInt8 × Int) → List UInt8 × Int → List Op
  | [], _ => []
  | p :: ps, pd => opsOne r pd p ++ (matchOne r pd p).elim [] (opsPrefix r ps)

def opsIn (argv1 : String) (r : Rule) : List Iface → List UInt8 × Int → List Op
  | [], _ => []
  | c :: cs, pd =>
    if argv1 ≠ "*" ∧ argv1 ≠ c.interface then opsIn argv1 r cs pd
    else
      opsPrefix r c.ipv6Prefix pd ++ (matchPrefix r c.ipv6Prefix pd).elim [] fun pd =>
        opsPrefix r (if r.lw4o6 then c.ipv6Address else []) pd ++
          (matchPrefix r (if r.lw4o6 then c.ipv6Address else []) pd).elim [] fun pd =>
            if pd.2 ≥ 0 then [] else opsIn argv1 r cs pd

/-- the search of the delegated prefix -/
def opsPd (argv1 : String) (dump : List Iface) (r : Rule) : List Op :=
  if r.pdlen < 0 then opsIn argv1 r dump (r.pd, r.pdlen) else []

/-- the PSID, with the two shifts of its alignment -/
def opsPsid (r : Rule) (pdlen : Int) : List Op :=
  (if psidGiven r < 0 ∧ psidlenOf r pdlen ≤ 16 ∧ psidlenOf r pdlen ≥ 0 ∧ pdlen ≥ 0 ∧
      ealenOf r pdlen ≥ psidlenOf r pdlen then
    [.bmemcpys64 2 (r.prefix6len + ealenOf r pdlen - psidlenOf r pdlen) (psidlenOf r pdlen)]
  else []) ++
  [.shift (16 - psidlenOf r pdlen), .shift (16 - psidlenOf r pdlen)]

def opsIpv4 (r : Rule) (pdlen : Int) : List Op :=
  if embedded r pdlen then
    [.bmemcpys64 4 r.prefix6len (ealenOf r pdlen - psidlenOf r pdlen), .shift r.prefix4len,
      .bmemcpy r.prefix4len]
  else []

def opsIpv6 (pdlen : Int) : List Op := if pdlen ≥ 0 then [.bmemcpy pdlen] else []

/-- the loop that prints the port sets -/
def opsPorts (offset psidlen psid : Int) : List Op :=
  if psidlen > 0 ∧ psid ≥ 0 then
    let first := if offset = 0 then 0 else 1
    .shift offset :: (List.range' first ((shl 1 offset).toNat - first)).flatMap fun _ =>
      [.shift (16 - offset), .shift offset, .shift (16 - offset - psidlen)]
  else []

/-- a rule with its delegated prefix, up to the end -/
def opsRule (legacy : Bool) (behind : List UInt8) (r : Rule) (pd : List UInt8) (pdlen : Int) : List Op :=
  opsPsid r pdlen ++ (opsIpv4 r pdlen ++ (opsIpv6 pdlen ++
    (findPsid r (pd ++ behind) pdlen).elim [] fun psid =>
      opsPorts (offsetOf legacy r) (psidlenOf r pdlen)
        (shl (psidRight r pdlen psid) (16 - psidlenOf r pdlen))))

/-- "Skipping invalid or incomplete rule" and "Skipping non-FMR without matching PD" -/
def skipped (r : Rule) (pdlen : Int) : Bool := invalid r pdlen || (pdlen < 0 && !r.fmr)

/-! ## the search -/

/-- the masks of the dump are those of prefixes -/
def Good (ps : List (List UInt8 × Int)) : Prop := ∀ p ∈ ps, IsPrefix p ∧ 0 ≤ p.2

def GoodDump (dump : List Iface) : Prop := ∀ c ∈ dump, Good c.ipv6Prefix ∧ Good c.ipv6Address

/-- operations in range, and a delegated prefix as it should be behind them -/
structure Searched (ops : List Op) (res : Option (List UInt8 × Int)) (q : List UInt8 × Int) : Prop where
  inRange : ∀ op ∈ ops, op.InRange
  res : res = some q
  isPrefix : IsPrefix q

section
variable {r : Rule} (h0 : 0 ≤ r.prefix6len) (h6 : r.ipv6prefix.length = 16)
include h0 h6

theorem searched_one {pd p : List UInt8 × Int} (hpd : IsPrefix pd) (hp : IsPrefix p) (hp0 : 0 ≤ p.2) :
    ∃ q, Searched (opsOne r pd p) (matchOne r pd p) q := by
  have hlen := hp.length
  have hm128 := hp.mask
  have hl := hpd.length
  have h128 := r.hPrefix6len
  obtain ⟨mask, hmask⟩ : ∃ mask, mask = if r.lw4o6 = true ∧ p.2 = 128 then 64 else p.2 := ⟨_, rfl⟩
  have hlo : 0 ≤ mask := by
    rw [hmask]
    split <;> omega
  have hhi : mask ≤ 128 := by
    rw [hmask]
    split <;> omega
  obtain ⟨hit, h1, -⟩ := sameBits_bit hlen h6 h0 h128 (pd.2 < mask && mask ≥ r.prefix6len)
  obtain ⟨hit2, h2, -⟩ :=
    sameBits_bit hlen h6 hlo hhi (r.lw4o6 && pd.2 < r.prefix6len && mask < r.prefix6len)
  have hcmp : ∀ (c : Bool) (n : Int), 0 ≤ n → n ≤ 128 →
      ∀ op ∈ (if c then [Op.bmemcmp n] else []), op.InRange := by
    intro c n hn0 hn op hop
    cases c with
    | false => exact absurd hop List.not_mem_nil
    | true => exact List.mem_singleton.mp hop ▸ ⟨hn0, hn⟩
  have hcpy : ∀ n : Int, 0 ≤ n → n ≤ 128 → ∀ op ∈ [Op.bmemcpy n], op.InRange := by
    intro n hn0 hn op hop
    exact List.mem_singleton.mp hop ▸ ⟨hn0, hn⟩
  have hsome : ¬ some false = some true := fun h => Bool.false_ne_true (Option.some.inj h)
  unfold opsOne matchOne
  dsimp only
  rw [← hmask, h1, h2, Option.bind_some, Option.bind_some]
  generalize (decide (pd.2 < mask) && decide (mask ≥ r.prefix6len)) = longer
  generalize (r.lw4o6 && decide (pd.2 < r.prefix6len) && decide (mask < r.prefix6len)) = shorter
  cases hit with
  | true =>
    obtain ⟨m, h3, -⟩ := bmemcpy_bit (a := pd.1) (b := p.1) (n := mask.toNat) (by omega) (by omega)
    rw [if_pos (show some true = some true from rfl), if_pos rfl, h3]
    refine ⟨(m, mask), fun op hop => ?_, rfl, (bmemcpy_length h3).trans hl, hhi⟩
    rcases List.mem_append.mp hop with hop | hop
    · exact hcmp _ _ h0 h128 op hop
    · exact hcpy _ hlo hhi op hop
  | false =>
    rw [if_neg hsome, if_neg Bool.false_ne_true]
    cases hit2 with
    | true =>
      obtain ⟨m, h3, -⟩ := bmemcpy_bit (a := pd.1) (b := r.ipv6prefix) (n := r.prefix6len.toNat)
        (by omega) (by omega)
      rw [if_pos (show some true = some true from rfl), if_pos rfl, h3]
      refine ⟨(m, r.prefix6len), fun op hop => ?_, rfl, (bmemcpy_length h3).trans hl, h128⟩
      rcases List.mem_append.mp hop with hop | hop
      · exact hcmp _ _ h0 h128 op hop
      · rcases List.mem_append.mp hop with hop | hop
        · exact hcmp _ _ hlo hhi op hop
        · exact hcpy _ h0 h128 op hop
    | false =>
      rw [if_neg hsome, if_neg Bool.false_ne_true, List.append_nil]
      refine ⟨pd, fun op hop => ?_, rfl, hpd⟩
      rcases List.mem_append.mp hop with hop | hop
      · exact hcmp _ _ h0 h128 op hop
      · exact hcmp _ _ hlo hhi op hop

omit h0 h6 in
/-- a search, and then another one -/
theorem Searched.bind {ops : List Op} {res : Option (List UInt8 × Int)} {q q' : List UInt8 × Int}
    {g : List UInt8 × Int → List Op} {f : List UInt8 × Int → Option (List UInt8 × Int)}
    (h : Searched ops res q) (h' : Searched (g q) (f q) q') :
    Searched (ops ++ res.elim [] g) (res.bind f) q' := by
  rw [h.res]
  refine ⟨fun op hop => ?_, h'.res, h'.isPrefix⟩
  rcases List.mem_append.mp hop with hop | hop
  · exact h.inRange op hop
  · exact h'.inRange op hop

theorem searched_prefix {ps : List (List UInt8 × Int)} : ∀ {pd : List UInt8 × Int}, Good ps → IsPrefix pd →
    ∃ q, Searched (opsPrefix r ps pd) (matchPrefix r ps pd) q := by
  induction ps with
  | nil => exact fun _ hpd => ⟨_, fun op hop => absurd hop List.not_mem_nil, rfl, hpd⟩
  | cons p ps ih =>
    intro pd hps hpd
    obtain ⟨hp, hp0⟩ := hps p List.mem_cons_self
    obtain ⟨q, hq⟩ := searched_one h0 h6 hpd hp hp0
    obtain ⟨q', hq'⟩ := ih (fun a ha => hps a (List.mem_cons_of_mem p ha)) hq.isPrefix
    exact ⟨q', hq.bind hq'⟩

theorem searched_in {argv1 : String} {dump : List Iface} : ∀ {pd : List UInt8 × Int}, GoodDump dump →
    IsPrefix pd → ∃ q, Searched (opsIn argv1 r dump pd) (findIn argv1 r dump pd) q := by
  induction dump with
  | nil => exact fun _ hpd => ⟨_, fun op hop => absurd hop List.not_mem_nil, rfl, hpd⟩
  | cons c cs ih =>
    intro pd hd hpd
    have hcs : GoodDump cs := fun a ha => hd a (List.mem_cons_of_mem c ha)
    obtain ⟨hc1, hc2⟩ := hd c List.mem_cons_self
    unfold opsIn findIn
    by_cases hn : argv1 ≠ "*" ∧ argv1 ≠ c.interface
    · rw [if_pos hn, if_pos hn]
      exact ih hcs hpd
    · rw [if_neg hn, if_neg hn]
      have haddr : Good (if r.lw4o6 = true then c.ipv6Address else []) := by
        split
        · exact hc2
        · exact fun p hp => absurd hp List.not_mem_nil
      obtain ⟨q1, h1⟩ := searched_prefix h0 h6 hc1 hpd
      obtain ⟨q2, h2⟩ := searched_prefix h0 h6 haddr h1.isPrefix
      have h3 : ∃ q3, Searched (if q2.2 ≥ 0 then [] else opsIn argv1 r cs q2)
          (if q2.2 ≥ 0 then some q2 else findIn argv1 r cs q2) q3 := by
        by_cases hq : q2.2 ≥ 0
        · rw [if_pos hq, if_pos hq]
          exact ⟨q2, fun op hop => absurd hop List.not_mem_nil, rfl, h2.isPrefix⟩
        · rw [if_neg hq, if_neg hq]
          exact ih hcs h2.isPrefix
      obtain ⟨q3, h3⟩ := h3
      exact ⟨q3, h1.bind (h2.bind h3)⟩

end

/-- the search of the delegated prefix is in range, for a prefix length that is given -/
theorem searched_pd {argv1 : String} {dump : List Iface} (hd : GoodDump dump) {r : Rule} (hr : Parsed r)
    (h0 : 0 ≤ r.prefix6len) : ∃ q, Searched (opsPd argv1 dump r) (findPd argv1 dump r) q := by
  unfold opsPd findPd
  split
  · exact searched_in h0 hr.ipv6prefix hd ⟨r.hPd, hr.pdlen⟩
  · exact ⟨_, fun op hop => absurd hop List.not_mem_nil, rfl, r.hPd, hr.pdlen⟩

/-! ## the lengths of a rule -/

/-- the lengths with which the operations are in range -/
structure Sound (legacy : Bool) (r : Rule) (pdlen : Int) : Prop where
  psidlen : -15 ≤ psidlenOf r pdlen ∧ psidlenOf r pdlen ≤ 16
  ipv4 : embedded r pdlen = true → r.prefix4len ≤ 31 ∧ ealenOf r pdlen - psidlenOf r pdlen ≤ 32 ∧
    r.prefix6len + (ealenOf r pdlen - psidlenOf r pdlen) ≤ 127
  psid : psidGiven r < 0 → 0 ≤ psidlenOf r pdlen → 0 ≤ pdlen → r.prefix6len + ealenOf r pdlen ≤ 127
  ports : 0 < psidlenOf r pdlen → 0 ≤ psidGiven r ∨ 0 ≤ pdlen →
    offsetOf legacy r + psidlenOf r pdlen ≤ 16

theorem offsetOf_range (legacy : Bool) (r : Rule) : 0 ≤ offsetOf legacy r ∧ offsetOf legacy r ≤ 16 := by
  have h := r.hOffset
  unfold offsetOf
  split
  · split
    · omega
    · split <;> omega
  · omega

theorem psidGiven_range (r : Rule) : -2147483648 ≤ psidGiven r ∧ psidGiven r ≤ 65535 := by
  have h := r.hPsid
  unfold psidGiven
  split <;> omega

theorem invalid_false {r : Rule} {pdlen : Int} (h : invalid r pdlen = false) :
    0 ≤ r.prefix4len ∧ 0 ≤ r.prefix6len ∧ 0 ≤ ealenOf r pdlen ∧
      psidlenOf r pdlen ≤ ealenOf r pdlen := by
  unfold invalid at h
  simp only [Bool.or_eq_false_iff, decide_eq_false_iff_not, Int.not_lt] at h
  exact ⟨h.1.1.1, h.1.1.2, h.1.2, h.2⟩

/-- clearing the bits behind a PSID does not change its sign -/
theorem shl_sar_nonneg {psid k : Int} (hk : 0 < k) (hk16 : k ≤ 16) (hlo : -2147483648 ≤ psid)
    (hhi : psid ≤ 65535) : 0 ≤ shl (sar psid (16 - k)) (16 - k) ↔ 0 ≤ psid := by
  obtain ⟨n, hn⟩ : ∃ n : Nat, 16 - k = n := ⟨(16 - k).toNat, by omega⟩
  have hpos : (0 : Int) < 2 ^ n := by positivity
  rw [hn, (shl_sar_eq (by omega) ⟨hlo, hhi⟩).2, mul_nonneg_iff_of_pos_right hpos]
  constructor
  · intro h
    have hle := Int.ediv_mul_le psid hpos.ne'
    have hnn := Int.mul_nonneg h hpos.le
    omega
  · exact fun h => Int.ediv_nonneg h hpos.le

/-- the PSID: it is not negative if it was given, or read from the delegated prefix -/
theorem findPsid_range {r : Rule} {mem : List UInt8} {pdlen : Int} (hmem : 16 ≤ mem.length)
    (h0 : 0 ≤ r.prefix6len) (hle : psidlenOf r pdlen ≤ ealenOf r pdlen) (h16 : psidlenOf r pdlen ≤ 16)
    (hread : psidGiven r < 0 → 0 ≤ psidlenOf r pdlen → 0 ≤ pdlen → r.prefix6len + ealenOf r pdlen ≤ 127) :
    ∃ psid, findPsid r mem pdlen = some psid ∧ -2147483648 ≤ psid ∧ psid ≤ 65535 ∧
      (0 < psidlenOf r pdlen → (0 ≤ psid ↔ 0 ≤ psidGiven r ∨ 0 ≤ pdlen)) := by
  have hgiven := psidGiven_range r
  unfold findPsid
  dsimp only
  by_cases hc : psidGiven r < 0 ∧ psidlenOf r pdlen ≤ 16 ∧ psidlenOf r pdlen ≥ 0 ∧ pdlen ≥ 0 ∧
      ealenOf r pdlen ≥ psidlenOf r pdlen
  · rw [if_pos hc]
    have h127 := hread hc.1 hc.2.2.1 hc.2.2.2.1
    obtain ⟨k, hk⟩ : ∃ k : Nat, psidlenOf r pdlen = k := ⟨(psidlenOf r pdlen).toNat, by omega⟩
    obtain ⟨f, hf⟩ : ∃ f : Nat, r.prefix6len + ealenOf r pdlen - psidlenOf r pdlen = f :=
      ⟨(r.prefix6len + ealenOf r pdlen - psidlenOf r pdlen).toNat, by omega⟩
    obtain ⟨m, h1, -⟩ := bmemcpys64_bit (a := [0, 0]) (b := mem) (f := f) (n := k)
      (show k ≤ 16 by omega) (by omega) (by omega)
    have hlt := ofBytes_lt m
    rw [bmemcpys64_length h1] at hlt
    have hlt' : ofBytes m < 65536 := hlt
    rw [hf, hk, h1]
    refine ⟨ofBytes m, rfl, by omega, by omega, fun _ => ?_⟩
    exact iff_of_true (by omega) (.inr hc.2.2.2.1)
  · rw [if_neg hc]
    refine ⟨_, rfl, hgiven.1, hgiven.2, fun hpos => ?_⟩
    constructor
    · exact fun h => .inl h
    · rintro (h | h)
      · exact h
      · by_contra hneg
        exact hc ⟨by omega, h16, hpos.le, h, hle⟩

/-! ## the operations of a rule -/

theorem inRange_psid {r : Rule} {pdlen : Int} (h0 : 0 ≤ r.prefix6len)
    (hle : psidlenOf r pdlen ≤ ealenOf r pdlen) : (∀ op ∈ opsPsid r pdlen, op.InRange) ↔
      (-15 ≤ psidlenOf r pdlen ∧ psidlenOf r pdlen ≤ 16) ∧
      (psidGiven r < 0 → 0 ≤ psidlenOf r pdlen → 0 ≤ pdlen → r.prefix6len + ealenOf r pdlen ≤ 127) := by
  have hshift : (∀ op ∈ [Op.shift (16 - psidlenOf r pdlen), Op.shift (16 - psidlenOf r pdlen)], op.InRange) ↔
      -15 ≤ psidlenOf r pdlen ∧ psidlenOf r pdlen ≤ 16 := by
    rw [List.forall_mem_cons, List.forall_mem_singleton, and_self]
    show 0 ≤ 16 - psidlenOf r pdlen ∧ 16 - psidlenOf r pdlen ≤ 31 ↔ _
    omega
  unfold opsPsid
  rw [List.forall_mem_append, hshift, and_comm, and_congr_right_iff]
  rintro ⟨-, h16⟩
  split
  · next hc =>
    rw [List.forall_mem_singleton]
    show (0 ≤ _ ∧ 0 ≤ psidlenOf r pdlen ∧ _ / 8 < 16 ∧ _ ∧ psidlenOf r pdlen ≤ 8 * (2 : Nat)) ↔ _
    constructor
    · intro h _ _ _
      omega
    · intro h
      have h127 := h hc.1 hc.2.2.1 hc.2.2.2.1
      omega
  · next hc =>
    refine iff_of_true (fun op hop => absurd hop List.not_mem_nil) fun h1 h2 h3 => ?_
    exact absurd ⟨h1, h16, h2, h3, hle⟩ hc

theorem inRange_ipv4 {r : Rule} {pdlen : Int} (h0 : 0 ≤ r.prefix6len) (h4 : 0 ≤ r.prefix4len)
    (hle : psidlenOf r pdlen ≤ ealenOf r pdlen) : (∀ op ∈ opsIpv4 r pdlen, op.InRange) ↔
      (embedded r pdlen = true → r.prefix4len ≤ 31 ∧ ealenOf r pdlen - psidlenOf r pdlen ≤ 32 ∧
        r.prefix6len + (ealenOf r pdlen - psidlenOf r pdlen) ≤ 127) := by
  unfold opsIpv4
  split
  · next he =>
    rw [List.forall_mem_cons, List.forall_mem_cons, List.forall_mem_singleton, he]
    show ((0 ≤ r.prefix6len ∧ 0 ≤ ealenOf r pdlen - psidlenOf r pdlen ∧ _ / 8 < 16 ∧ _ ∧
      ealenOf r pdlen - psidlenOf r pdlen ≤ ((8 * 4 : Nat) : Int)) ∧
      (0 ≤ r.prefix4len ∧ r.prefix4len ≤ 31) ∧ (0 ≤ r.prefix4len ∧ r.prefix4len ≤ 128)) ↔ _
    constructor
    · intro h _
      omega
    · intro h
      have h' := h rfl
      omega
  · next he =>
    exact iff_of_true (fun op hop => absurd hop List.not_mem_nil) fun h => absurd h he

theorem inRange_ports {offset psidlen psid : Int} (h0 : 0 ≤ offset) (h16 : offset ≤ 16)
    (hk : psidlen ≤ 16) : (∀ op ∈ opsPorts offset psidlen psid, op.InRange) ↔
      (0 < psidlen → 0 ≤ psid → offset + psidlen ≤ 16) := by
  obtain ⟨a, rfl⟩ : ∃ a : Nat, offset = a := ⟨offset.toNat, by omega⟩
  unfold opsPorts
  split
  · next hc =>
    dsimp only
    rw [shl_one (by omega), Int.toNat_natCast, List.forall_mem_cons]
    constructor
    · rintro ⟨-, h⟩ _ _
      -- there is a first turn of the loop
      have hmem : Op.shift (16 - a - psidlen) ∈ (List.range' (if (a : Int) = 0 then 0 else 1)
          (2 ^ a - if (a : Int) = 0 then 0 else 1)).flatMap fun _ =>
            [Op.shift (16 - a), Op.shift a, Op.shift (16 - a - psidlen)] := by
        refine List.mem_flatMap.mpr ⟨if (a : Int) = 0 then 0 else 1, ?_, by simp⟩
        rw [List.mem_range'_1]
        refine ⟨le_refl _, ?_⟩
        split
        · next ha =>
          rw [show a = 0 by omega]
          decide
        · next ha =>
          have h2 : 2 ^ 1 ≤ 2 ^ a := Nat.pow_le_pow_right (by decide) (by omega)
          omega
      have hr : 0 ≤ 16 - (a : Int) - psidlen ∧ _ := h _ hmem
      omega
    · intro h
      have h' := h hc.1 hc.2
      refine ⟨⟨h0, show (a : Int) ≤ 31 by omega⟩, fun op hop => ?_⟩
      obtain ⟨k, -, hop⟩ := List.mem_flatMap.mp hop
      rcases List.mem_cons.mp hop with rfl | hop
      · exact ⟨by omega, by omega⟩
      · rcases List.mem_cons.mp hop with rfl | hop
        · exact ⟨h0, show (a : Int) ≤ 31 by omega⟩
        · rw [List.mem_singleton.mp hop]
          exact ⟨by omega, by omega⟩
  · next hc =>
    exact iff_of_true (fun op hop => absurd hop List.not_mem_nil) fun h1 h2 => absurd ⟨h1, h2⟩ hc

/-- the operations of a rule that is not skipped -/
theorem inRange_rule {legacy : Bool} {behind : List UInt8} {r : Rule} {pd : List UInt8} {pdlen : Int}
    (hpd : IsPrefix (pd, pdlen)) (hinv : invalid r pdlen = false) :
    (∀ op ∈ opsRule legacy behind r pd pdlen, op.InRange) ↔ Sound legacy r pdlen := by
  obtain ⟨h4, h6, -, hle⟩ := invalid_false hinv
  have hoff := offsetOf_range legacy r
  have hmem : 16 ≤ (pd ++ behind).length := by
    have hl : pd.length = 16 := hpd.length
    rw [List.length_append]
    omega
  have hipv6 : ∀ op ∈ opsIpv6 pdlen, op.InRange := by
    intro op hop
    unfold opsIpv6 at hop
    split at hop
    · next h => exact List.mem_singleton.mp hop ▸ ⟨h, hpd.mask⟩
    · exact absurd hop List.not_mem_nil
  unfold opsRule
  rw [List.forall_mem_append, List.forall_mem_append, List.forall_mem_append, inRange_psid h6 hle,
    inRange_ipv4 h6 h4 hle]
  have hports : -15 ≤ psidlenOf r pdlen ∧ psidlenOf r pdlen ≤ 16 →
      (psidGiven r < 0 → 0 ≤ psidlenOf r pdlen → 0 ≤ pdlen → r.prefix6len + ealenOf r pdlen ≤ 127) →
      ((∀ op ∈ (findPsid r (pd ++ behind) pdlen).elim [] fun psid =>
          opsPorts (offsetOf legacy r) (psidlenOf r pdlen)
            (shl (psidRight r pdlen psid) (16 - psidlenOf r pdlen)), op.InRange) ↔
        (0 < psidlenOf r pdlen → 0 ≤ psidGiven r ∨ 0 ≤ pdlen →
          offsetOf legacy r + psidlenOf r pdlen ≤ 16)) := by
    intro hk hread
    obtain ⟨psid, h1, hlo, hhi, hsign⟩ := findPsid_range hmem h6 hle hk.2 hread
    rw [h1, Option.elim_some, inRange_ports hoff.1 hoff.2 hk.2]
    refine forall_congr' fun hpos => ?_
    unfold psidRight
    rw [shl_sar_nonneg hpos hk.2 hlo hhi, hsign hpos]
  constructor
  · rintro ⟨⟨h1, h2⟩, h3, -, h5⟩
    exact ⟨h1, h3, h2, (hports h1 h2).mp h5⟩
  · rintro ⟨h1, h2, h3, h5⟩
    exact ⟨⟨h1, h3⟩, h2, hipv6, (hports h1 h3).mpr h5⟩

/-- a rule with the lengths for it is worked out, whatever stands behind the delegated prefix -/
theorem mainRulePd_sound {legacy : Bool} {behind : List UInt8} {r : Rule} {pd : List UInt8} {pdlen : Int}
    (hpd : IsPrefix (pd, pdlen)) (hskip : skipped r pdlen = false) (hs : Sound legacy r pdlen) :
    ∃ o, mainRulePd legacy behind r pd pdlen = some (some o) := by
  obtain ⟨hinv, hfmr⟩ := Bool.or_eq_false_iff.mp hskip
  obtain ⟨h4, h6, -, hle⟩ := invalid_false hinv
  have h32 := r.hPrefix4len
  have hl : pd.length = 16 := hpd.length
  have h128 : pdlen ≤ 128 := hpd.mask
  have hmem : 16 ≤ (pd ++ behind).length := by
    rw [List.length_append]
    omega
  obtain ⟨psid, hpsid, -⟩ := findPsid_range hmem h6 hle hs.psidlen.2 hs.psid
  obtain ⟨v4, hv4, hv4l⟩ : ∃ v4, findIpv4 r (pd ++ behind) pdlen = some v4 ∧ v4.length = 4 := by
    unfold findIpv4
    split
    · next he =>
      obtain ⟨-, hn, hr⟩ := hs.ipv4 he
      obtain ⟨n, hn'⟩ : ∃ n : Nat, ealenOf r pdlen - psidlenOf r pdlen = n :=
        ⟨(ealenOf r pdlen - psidlenOf r pdlen).toNat, by omega⟩
      obtain ⟨f, hf⟩ : ∃ f : Nat, r.prefix6len = f := ⟨r.prefix6len.toNat, by omega⟩
      obtain ⟨a, h1, -⟩ := bmemcpys64_bit (a := List.replicate 4 0) (b := pd ++ behind) (f := f) (n := n)
        (by rw [List.length_replicate]; omega) (by omega) (by omega)
      obtain ⟨m, h2, -⟩ := bmemcpy_bit (a := toBytes 4 (ofBytes a >>> (r.prefix4len % 32).toNat))
        (b := r.ipv4prefix) (n := r.prefix4len.toNat) (by rw [toBytes_length]; omega)
        (by rw [r.hIpv4prefix]; omega)
      rw [hn', hf, h1]
      exact ⟨m, h2, (bmemcpy_length h2).trans (toBytes_length _ _)⟩
    · exact ⟨_, rfl, rfl⟩
  obtain ⟨v6, hv6⟩ : ∃ v6, findIpv6 legacy pd pdlen v4 (psid16Of r pdlen psid) = some v6 := by
    have hp16 : (psid16Of r pdlen psid).length = 2 := toBytes_length _ _
    unfold findIpv6
    dsimp only
    split
    · next h0 =>
      obtain ⟨k, hk⟩ : ∃ k, (if legacy = true then 9 else 10) = k := ⟨_, rfl⟩
      have hk10 : k ≤ 10 := by
        rw [← hk]
        split <;> omega
      obtain ⟨a, h1, ha, -⟩ := store_bit (a := List.replicate 16 0) (d := v4) (k := k)
        (by rw [List.length_replicate]; omega)
      rw [List.length_replicate] at ha
      obtain ⟨b, h2, hb, -⟩ := store_bit (a := a) (d := psid16Of r pdlen psid) (k := k + 4) (by omega)
      obtain ⟨m, h3, -⟩ := bmemcpy_bit (a := b) (b := pd) (n := pdlen.toNat) (by omega) (by omega)
      rw [hk, h1, Option.bind_some, h2, Option.bind_some]
      exact ⟨m, h3⟩
    · exact ⟨_, rfl⟩
  have hgo : ¬ (pdlen < 0 ∧ r.fmr = false) := by
    rintro ⟨hn, hf⟩
    rw [decide_eq_true hn, hf] at hfmr
    exact absurd hfmr (by decide)
  unfold mainRulePd
  rw [hpsid, Option.bind_some, if_neg (by rw [hinv]; decide), hv4, Option.bind_some, if_neg hgo, hv6]
  exact ⟨_, rfl⟩

def wan : List Iface := [⟨"wan6", [(customer, 56)], []⟩]

theorem wan_good : GoodDump wan := by
  intro c hc
  rw [List.mem_singleton.mp hc]
  refine ⟨fun p hp => ?_, fun p hp => absurd hp List.not_mem_nil⟩
  exact List.mem_singleton.mp hp ▸ ⟨⟨rfl, by decide⟩, by decide⟩

/-- `ealen=16,prefix4len=24,prefix6len=40,ipv6prefix=2001:db8::` -/
def mapOpts : List Opt :=
  [.ealen ⟨16, false, by decide⟩, .prefix4len ⟨24, false, by decide⟩, .prefix6len ⟨40, false, by decide⟩,
    Opt.ipv6prefix (some ⟨[0x20, 0x01, 0x0d, 0xb8, 0, 0, 0, 0, 0, 0, 0, 0, 0, 0, 0, 0], rfl⟩)]

theorem mapOpts_found : findPd "*" wan (parseRule mapOpts) = some (customer, 56) := by decide

theorem mapOpts_sound : Sound false (parseRule mapOpts) 56 :=
  ⟨by decide, fun _ => by decide, fun _ _ _ => by decide, fun _ _ => by decide⟩

/-- `type=lw4o6,prefix6len=56,psidlen=8,ipv6prefix=2001:db8:12:3400::`, with the default `prefix4len` -/
def lwOpts : List Opt :=
  [.type true, .prefix6len ⟨56, false, by decide⟩, .psidlen ⟨8, false, by decide⟩,
    Opt.ipv6prefix (some ⟨customer, rfl⟩)]

end MapCalc
