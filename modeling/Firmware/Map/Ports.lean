import Firmware.Map.Calc

/-!
# mapcalc: port sets

The ranges of `RULE_n_PORTSETS` against the port sets of RFC 7597: a port is `a` bits that are not
all zero, `k` bits of the PSID, and the rest.

* `portset_eq`     the range for one index;
* `portset_mem`    the ports in it;
* `mainRule_psid`  the PSID of a rule is the one in its IPv6 address;
* `ports_exact`    all ranges.
-/

set_option linter.unusedVariables false

namespace MapCalc
open Img Bits

/-- the ports of a PSID -/
def IsPort (a k psid p : Nat) : Prop :=
  1 ≤ p ∧ p ≤ 65535 ∧ p / 2 ^ (16 - a - k) % 2 ^ k = psid ∧ (0 < a → p / 2 ^ (16 - a) ≠ 0)

def Covers (rs : List (Int × Int)) (p : Int) : Prop := ∃ r ∈ rs, r.1 ≤ p ∧ p ≤ r.2

/-- ranges that are not empty, each above the one before it -/
def Ascending (rs : List (Int × Int)) : Prop :=
  (∀ r ∈ rs, r.1 ≤ r.2) ∧ rs.Pairwise fun r s => r.2 < s.1

/-! ## shifts -/

theorem shl_one {n : Nat} (h : n ≤ 16) : shl 1 n = (2 ^ n : Nat) := by
  unfold shl
  rw [show ((n : Int) % 32).toNat = n by omega, one_mul]
  have : (2 : Int) ^ n ≤ 2 ^ 16 := pow_le_pow_right₀ (by norm_num) h
  have h0 : (0 : Int) < 2 ^ n := by positivity
  unfold CInt.wrap
  push_cast
  omega

theorem sar_mul_pow (v : Nat) {m n : Nat} (h : n ≤ m) (hn : n < 32) :
    sar ((v * 2 ^ m : Nat) : Int) n = (v * 2 ^ (m - n) : Nat) := by
  unfold sar
  rw [show ((n : Int) % 32).toNat = n by omega, show ((2 : Int) ^ n) = ((2 ^ n : Nat) : Int) by
    push_cast; rfl, ← Int.natCast_div, show 2 ^ m = 2 ^ (m - n) * 2 ^ n by
    rw [← pow_add, Nat.sub_add_cancel h], ← Nat.mul_assoc, Nat.mul_div_cancel _ (by positivity)]

/-! ## one range -/

/-- `w` ports from `s` on, without port 0 -/
def span (s w : Nat) : Option (Int × Int) :=
  let start : Int := if s = 0 then 1 else s
  if start ≤ s + w - 1 then some (start, s + w - 1) else none

theorem span_some {s w : Nat} {r : Int × Int} (h : span s w = some r) :
    r.1 = (if s = 0 then 1 else (s : Int)) ∧ r.2 = s + w - 1 ∧ r.1 ≤ r.2 := by
  unfold span at h
  by_cases hle : (if s = 0 then 1 else (s : Int)) ≤ s + w - 1
  · simp only [if_pos hle] at h
    rw [← Option.some.inj h]
    exact ⟨rfl, rfl, hle⟩
  · simp only [if_neg hle] at h
    exact absurd h (by simp)

theorem span_mem {s w : Nat} (p : Int) :
    (∃ r, span s w = some r ∧ r.1 ≤ p ∧ p ≤ r.2) ↔ 1 ≤ p ∧ s ≤ p ∧ p < s + w := by
  constructor
  · rintro ⟨r, hr, h1, h2⟩
    obtain ⟨e1, e2, -⟩ := span_some hr
    rw [e1] at h1
    split at h1 <;> omega
  · rintro ⟨h0, h1, h2⟩
    refine ⟨(if s = 0 then 1 else (s : Int), s + w - 1), ?_, ?_, ?_⟩
    · unfold span
      rw [if_pos]
      split <;> omega
    · show (if s = 0 then 1 else (s : Int)) ≤ p
      split <;> omega
    · show p ≤ s + w - 1
      omega

section
variable {a k v : Nat} (hak : a + k ≤ 16) (hv : v < 2 ^ k)
include hak hv

theorem portset_eq (i : Nat) : portset a k ((v * 2 ^ (16 - k) : Nat) : Int) i
    = span ((i * 2 ^ k + v) * 2 ^ (16 - a - k)) (2 ^ (16 - a - k)) := by
  have hsh : (16 - (a : Int)).toNat = 16 - a := by omega
  have hpow : 2 ^ (16 - a) = 2 ^ k * 2 ^ (16 - a - k) := by
    rw [← pow_add]
    congr 1
    omega
  have hlt : v * 2 ^ (16 - a - k) < 2 ^ (16 - a) := by
    rw [hpow]
    exact Nat.mul_lt_mul_of_pos_right hv (by positivity)
  have hor : (i <<< (16 - (a : Int)).toNat ||| (sar ((v * 2 ^ (16 - k) : Nat) : Int) a).toNat)
      = (i * 2 ^ k + v) * 2 ^ (16 - a - k) := by
    rw [sar_mul_pow v (by omega) (by omega), Int.toNat_natCast, hsh,
      show 16 - k - a = 16 - a - k by omega, ← Nat.shiftLeft_add_eq_or_of_lt hlt, Nat.shiftLeft_eq,
      hpow, Nat.add_mul, Nat.mul_assoc]
  have hlast : shl 1 (16 - (a : Int) - k) = (2 ^ (16 - a - k) : Nat) := by
    rw [← shl_one (by omega)]
    congr 1
    omega
  unfold portset span
  simp only [hor, hlast]

/-- the ports of the range for index `i` -/
theorem portset_mem (i : Nat) (p : Int) :
    (∃ r, portset a k ((v * 2 ^ (16 - k) : Nat) : Int) i = some r ∧ r.1 ≤ p ∧ p ≤ r.2) ↔
      1 ≤ p ∧ p.toNat / 2 ^ (16 - a - k) = i * 2 ^ k + v := by
  rw [portset_eq hak hv, span_mem]
  generalize i * 2 ^ k + v = j
  have hw : 0 < 2 ^ (16 - a - k) := by positivity
  rw [Nat.div_eq_iff hw]
  constructor <;> rintro ⟨h0, h1⟩ <;> refine ⟨h0, ?_⟩ <;> omega

/-- the range for a greater index is above -/
theorem portset_lt {i j : Nat} (hij : i < j) {r s : Int × Int}
    (hr : portset a k ((v * 2 ^ (16 - k) : Nat) : Int) i = some r)
    (hs : portset a k ((v * 2 ^ (16 - k) : Nat) : Int) j = some s) : r.2 < s.1 := by
  rw [portset_eq hak hv] at hr hs
  obtain ⟨-, h1, -⟩ := span_some hr
  obtain ⟨h2, -, -⟩ := span_some hs
  have hstep : (i * 2 ^ k + v) * 2 ^ (16 - a - k) + 2 ^ (16 - a - k)
      ≤ (j * 2 ^ k + v) * 2 ^ (16 - a - k) := by
    rw [← Nat.succ_mul]
    refine Nat.mul_le_mul_right _ ?_
    have := Nat.mul_le_mul_right (2 ^ k) hij
    have h0 : 0 < 2 ^ k := by positivity
    rw [Nat.succ_mul] at this
    omega
  rw [h1, h2]
  split <;> omega

/-! ## all ranges -/

omit hv in
theorem portsets_eq (hk : 1 ≤ k) : portsets a k ((v * 2 ^ (16 - k) : Nat) : Int)
    = some ((List.range' (if a = 0 then 0 else 1) (2 ^ a - if a = 0 then 0 else 1)).filterMap
      (portset a k ((v * 2 ^ (16 - k) : Nat) : Int))) := by
  unfold portsets
  rw [if_pos ⟨by omega, by omega⟩, shl_one (by omega), Int.toNat_natCast]
  simp only [Nat.cast_eq_zero]

theorem portsets_exact (hk : 1 ≤ k) :
    ∃ rs, portsets a k ((v * 2 ^ (16 - k) : Nat) : Int) = some rs ∧ Ascending rs ∧
      ∀ p, Covers rs p ↔ 0 ≤ p ∧ IsPort a k v p.toNat := by
  refine ⟨_, portsets_eq hak hk, ⟨?_, ?_⟩, ?_⟩
  · intro r hr
    obtain ⟨i, -, hi⟩ := List.mem_filterMap.mp hr
    rw [portset_eq hak hv] at hi
    exact (span_some hi).2.2
  · rw [List.pairwise_filterMap]
    refine List.Pairwise.imp ?_ List.pairwise_lt_range'
    intro i j hij r hr s hs
    exact portset_lt hak hv hij hr hs
  · intro p
    have h2 : 2 ^ (16 - a) = 2 ^ (16 - a - k) * 2 ^ k := by
      rw [← pow_add]
      congr 1
      omega
    have h65536 : 2 ^ (16 - a) * 2 ^ a = 65536 := by
      rw [← pow_add, Nat.sub_add_cancel (by omega)]
      rfl
    have hidx : p.toNat / 2 ^ (16 - a) = p.toNat / 2 ^ (16 - a - k) / 2 ^ k := by
      rw [h2, Nat.div_div_eq_div_mul]
    have hlt : p.toNat ≤ 65535 ↔ p.toNat / 2 ^ (16 - a) < 2 ^ a := by
      rw [Nat.div_lt_iff_lt_mul (by positivity), Nat.mul_comm, h65536]
      omega
    constructor
    · rintro ⟨r, hr, h1⟩
      obtain ⟨i, hi, hir⟩ := List.mem_filterMap.mp hr
      rw [List.mem_range'_1] at hi
      obtain ⟨h3, h4⟩ := (portset_mem hak hv i p).mp ⟨r, hir, h1⟩
      have hi' : p.toNat / 2 ^ (16 - a) = i := by
        rw [hidx, h4, Nat.mul_comm, Nat.mul_add_div (by positivity), Nat.div_eq_of_lt hv, Nat.add_zero]
      have h0 : 0 < 2 ^ a := by positivity
      refine ⟨by omega, by omega, ?_, ?_, ?_⟩
      · rw [hlt, hi']
        split at hi <;> omega
      · rw [h4, Nat.mul_comm, Nat.mul_add_mod, Nat.mod_eq_of_lt hv]
      · intro ha
        rw [hi']
        rw [if_neg (by omega)] at hi
        omega
    · rintro ⟨h0, h1, h3, h4, h5⟩
      rw [hlt] at h3
      have hsum : p.toNat / 2 ^ (16 - a - k) = p.toNat / 2 ^ (16 - a) * 2 ^ k + v := by
        rw [hidx, ← h4, Nat.mul_comm, Nat.div_add_mod]
      obtain ⟨r, hr, h6⟩ := (portset_mem hak hv _ p).mpr ⟨by omega, hsum⟩
      refine ⟨r, List.mem_filterMap.mpr ⟨_, ?_, hr⟩, h6⟩
      rw [List.mem_range'_1]
      clear hsum hidx hlt
      generalize p.toNat / 2 ^ (16 - a) = i at h3 h5 ⊢
      split
      · omega
      · have := h5 (by omega)
        omega

end

/-! ## the PSID of a rule -/

theorem bmemcpy_length {a b m : List UInt8} {n : Nat} (h : bmemcpy a b n = some m) :
    m.length = a.length := by
  unfold bmemcpy at h
  obtain ⟨a1, h1, h2⟩ := Option.bind_eq_some_iff.mp h
  obtain ⟨d, h3, h4⟩ := Option.bind_eq_some_iff.mp h1
  have hl : a1.length = a.length := store_length h4
  split at h2
  · obtain ⟨x, -, h5⟩ := Option.bind_eq_some_iff.mp h2
    obtain ⟨y, -, h6⟩ := Option.bind_eq_some_iff.mp h5
    rw [← Option.some.inj h6, List.length_set, hl]
  · rw [← Option.some.inj h2, hl]

theorem bmemcpys64_length {a b m : List UInt8} {f n : Int} (h : bmemcpys64 a b f n = some m) :
    m.length = a.length := by
  unfold bmemcpys64 at h
  split at h
  · exact absurd h (by simp)
  · obtain ⟨buf, -, h2⟩ := Option.bind_eq_some_iff.mp h
    exact bmemcpy_length h2

theorem psidGiven_le (r : Rule) : -2147483648 ≤ psidGiven r ∧ psidGiven r ≤ 65535 := by
  unfold psidGiven
  split
  · exact ⟨by omega, by omega⟩
  · exact r.hPsid

theorem findPsid_le {r : Rule} {mem : List UInt8} {pdlen psid : Int}
    (h : findPsid r mem pdlen = some psid) : -2147483648 ≤ psid ∧ psid ≤ 65535 := by
  simp only [findPsid] at h
  split at h
  · obtain ⟨m, h1, h2⟩ := Option.map_eq_some_iff.mp h
    have hl : m.length = 2 := bmemcpys64_length h1
    have hlt := ofBytes_lt m
    rw [hl] at hlt
    omega
  · rw [← Option.some.inj h]
    exact psidGiven_le r

/-- what a rule that is not skipped gives -/
theorem mainRulePd_some {legacy : Bool} {behind pd : List UInt8} {r : Rule} {pdlen : Int} {o : Out}
    (h : mainRulePd legacy behind r pd pdlen = some (some o)) :
    ∃ psid, findPsid r (pd ++ behind) pdlen = some psid ∧ o.psidlen = psidlenOf r pdlen ∧
      o.psid16 = psid16Of r pdlen psid ∧
      o.psid = shl (psidRight r pdlen psid) (16 - psidlenOf r pdlen) := by
  unfold mainRulePd at h
  obtain ⟨psid, h1, h2⟩ := Option.bind_eq_some_iff.mp h
  refine ⟨psid, h1, ?_⟩
  split at h2
  · exact absurd (Option.some.inj h2) (by simp)
  · obtain ⟨v4, -, h3⟩ := Option.bind_eq_some_iff.mp h2
    split at h3
    · exact absurd (Option.some.inj h3) (by simp)
    · obtain ⟨v6, -, h4⟩ := Option.map_eq_some_iff.mp h3
      rw [← Option.some.inj h4]
      exact ⟨rfl, rfl, rfl⟩

/-- shifting right and left again clears the low bits -/
theorem shl_sar_eq {x : Int} {n : Nat} (hn : n < 16) (hx : -2147483648 ≤ x ∧ x ≤ 65535) :
    sar x n = x / 2 ^ n ∧ shl (sar x n) n = x / 2 ^ n * 2 ^ n := by
  have hs : sar x n = x / 2 ^ n := by
    unfold sar
    rw [show ((n : Int) % 32).toNat = n by omega]
  have hpos : (0 : Int) < 2 ^ n := by positivity
  refine ⟨hs, ?_⟩
  unfold shl
  rw [hs, show ((n : Int) % 32).toNat = n by omega]
  refine CInt.wrap_of_inRange ⟨?_, ?_⟩
  · have h31 : (-2147483648 : Int) = -2 ^ (31 - n) * 2 ^ n := by
      rw [neg_mul, ← pow_add, Nat.sub_add_cancel (by omega)]
      rfl
    rw [h31]
    refine mul_le_mul_of_nonneg_right ?_ (Int.le_of_lt hpos)
    rw [Int.le_ediv_iff_mul_le hpos, ← h31]
    exact hx.1
  · have := Int.ediv_mul_le x (Int.ne_of_gt hpos)
    omega

theorem shl_sar {x : Int} {n : Nat} (hn : n < 16) (hx : -2147483648 ≤ x ∧ x ≤ 65535)
    (h0 : 0 ≤ shl (sar x n) n) :
    ∃ v : Nat, sar x n = v ∧ v < 2 ^ (16 - n) ∧ shl (sar x n) n = (v * 2 ^ n : Nat) := by
  obtain ⟨hs, hw⟩ := shl_sar_eq hn hx
  have hpos : (0 : Int) < 2 ^ n := by positivity
  rw [hw] at h0
  have hx0 : 0 ≤ x / 2 ^ n := nonneg_of_mul_nonneg_left h0 hpos
  obtain ⟨v, hv⟩ := Int.eq_ofNat_of_zero_le hx0
  refine ⟨v, by rw [hs, hv], ?_, ?_⟩
  · have h16 : (65536 : Int) = 2 ^ (16 - n) * 2 ^ n := by
      rw [← pow_add, Nat.sub_add_cancel (by omega)]
      rfl
    have : x / 2 ^ n < 2 ^ (16 - n) := by
      rw [Int.ediv_lt_iff_lt_mul hpos, ← h16]
      omega
    rw [hv] at this
    exact_mod_cast this
  · rw [hw, hv]
    push_cast
    rfl

/-- the PSID of the port sets is the one in the IPv6 address -/
theorem mainRule_psid {legacy : Bool} {argv1 : String} {dump : List Iface} {behind : List UInt8}
    {r : Rule} {o : Out} {k : Nat} (h : mainRule legacy argv1 dump behind r = some (some o))
    (hk : 1 ≤ k) (hk16 : k ≤ 16) (hlen : o.psidlen = k) (h0 : 0 ≤ o.psid) :
    ofBytes o.psid16 < 2 ^ k ∧ o.psid = (ofBytes o.psid16 * 2 ^ (16 - k) : Nat) := by
  unfold mainRule at h
  obtain ⟨⟨pd, pdlen⟩, -, h1⟩ := Option.bind_eq_some_iff.mp h
  obtain ⟨psid, h2, h3, h4, h5⟩ := mainRulePd_some h1
  have hn : 16 - psidlenOf r pdlen = ((16 - k : Nat) : Int) := by omega
  rw [h5] at h0
  unfold psidRight at h5 h0
  rw [hn] at h5 h0
  obtain ⟨v, hv, hlt, hs⟩ := shl_sar (by omega) (findPsid_le h2) h0
  have h16 : 2 ^ (16 - (16 - k)) ≤ 2 ^ 16 := Nat.pow_le_pow_right (by omega) (by omega)
  have hv16 : ofBytes o.psid16 = v := by
    rw [h4]
    unfold psid16Of psidRight
    rw [hn, hv, ofBytes_toBytes]
    omega
  rw [hv16, h5, hs]
  rw [show 16 - (16 - k) = k by omega] at hlt
  exact ⟨hlt, rfl⟩

/-! ## port sets of rules -/

/-- **The port sets** are those of RFC 7597: the ranges ascend and do not meet, they hold the ports
of the PSID and no others, two PSIDs share no port, and the PSID of a rule is the one in its IPv6
address. -/
theorem ports_exact (a k : Nat) (hk : 1 ≤ k) (hak : a + k ≤ 16) :
    (∀ v < 2 ^ k, ∃ rs, portsets a k ((v * 2 ^ (16 - k) : Nat) : Int) = some rs ∧ Ascending rs ∧
      ∀ p, Covers rs p ↔ 0 ≤ p ∧ IsPort a k v p.toNat) ∧
    (∀ v w rs ss, v < 2 ^ k → w < 2 ^ k → v ≠ w →
      portsets a k ((v * 2 ^ (16 - k) : Nat) : Int) = some rs →
      portsets a k ((w * 2 ^ (16 - k) : Nat) : Int) = some ss → ∀ p, ¬ (Covers rs p ∧ Covers ss p)) ∧
    ∀ legacy argv1 dump behind r o, mainRule legacy argv1 dump behind r = some (some o) →
      o.offset = a → o.psidlen = k → 0 ≤ o.psid → ofBytes o.psid16 < 2 ^ k ∧
        o.portsets = portsets a k ((ofBytes o.psid16 * 2 ^ (16 - k) : Nat) : Int) := by
  refine ⟨fun v hv => portsets_exact hak hv hk, ?_, ?_⟩
  · rintro v w rs ss hv hw hne hrs hss p ⟨h1, h2⟩
    obtain ⟨rs', e1, -, c1⟩ := portsets_exact hak hv hk
    obtain ⟨ss', e2, -, c2⟩ := portsets_exact hak hw hk
    rw [Option.some.inj (e1.symm.trans hrs)] at c1
    rw [Option.some.inj (e2.symm.trans hss)] at c2
    have e3 := ((c1 p).mp h1).2.2.2.1
    have e4 := ((c2 p).mp h2).2.2.2.1
    exact hne (e3.symm.trans e4)
  · intro legacy argv1 dump behind r o h ha hlen h0
    obtain ⟨h1, h2⟩ := mainRule_psid h hk (by omega) hlen h0
    refine ⟨h1, ?_⟩
    unfold Out.portsets
    rw [ha, hlen, h2]

/-- the example of RFC 7597: 192.0.2.18 with PSID 0x34 in 2001:db8:12:3400::/56 -/
def rfcRule : Rule :=
  { ealen := 16, prefix4len := 24, prefix6len := 40, pdlen := 56, ipv4prefix := [192, 0, 2, 0]
    pd := [0x20, 0x01, 0x0d, 0xb8, 0x00, 0x12, 0x34, 0, 0, 0, 0, 0, 0, 0, 0, 0] }

theorem ports_exact_rfc : ∃ o rs, mainRule false "*" [] [] rfcRule = some (some o) ∧
    o.ipv4addr = [192, 0, 2, 18] ∧ ofBytes o.psid16 = 0x34 ∧ o.portsets = some rs ∧ Ascending rs ∧
    ∀ p, Covers rs p ↔ 0 ≤ p ∧ IsPort 6 8 0x34 p.toNat := by
  obtain ⟨h1, -, h3⟩ := ports_exact 6 8 (by decide) (by decide)
  obtain ⟨o, ho⟩ : ∃ o, mainRule false "*" [] [] rfcRule = some (some o) := ⟨_, rfl⟩
  have hv4 : o.ipv4addr = [192, 0, 2, 18] := by
    rw [← Option.some.inj (Option.some.inj ho)]
    decide +kernel
  have hpsid : ofBytes o.psid16 = 0x34 := by
    rw [← Option.some.inj (Option.some.inj ho)]
    decide +kernel
  obtain ⟨rs, e, hasc, hcov⟩ := h1 0x34 (by decide)
  obtain ⟨-, h4⟩ := h3 false "*" [] [] rfcRule o ho
    (by rw [← Option.some.inj (Option.some.inj ho)]; rfl)
    (by rw [← Option.some.inj (Option.some.inj ho)]; rfl)
    (by rw [← Option.some.inj (Option.some.inj ho)]; decide +kernel)
  rw [hpsid] at h4
  exact ⟨o, rs, ho, hv4, hpsid, h4.trans e, hasc, hcov⟩

end MapCalc
