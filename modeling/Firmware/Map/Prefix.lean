import Firmware.Map.Address

/-!
# mapcalc: the delegated prefix

`match_prefix` goes over the prefixes of an interface and keeps the best one so far in one buffer.

* `bmemcmp_bit`       a comparison of bits;
* `Matches`           a prefix that a rule can use;
* `Picked`            the first of the longest prefixes that can be used;
* `matchPrefix_picks` it is what the search ends with.
-/

set_option linter.unusedVariables false

namespace MapCalc
open Img Bits

/-! ## comparison of bits -/

/-- two bytes agree in their first `k` bits -/
theorem shiftRight_eq_iff (x y : UInt8) {k : Nat} (h0 : 0 < k) (h8 : k < 8) :
    x >>> UInt8.ofNat (8 - k) = y >>> UInt8.ofNat (8 - k) ↔
      ∀ t, t < k → x.toNat.testBit (7 - t) = y.toNat.testBit (7 - t) := by
  have hk : (UInt8.ofNat (8 - k)).toNat % 8 = 8 - k := by
    rw [UInt8.toNat_ofNat']
    omega
  rw [← UInt8.toNat_inj, UInt8.toNat_shiftRight, UInt8.toNat_shiftRight, hk]
  constructor
  · intro h t ht
    have hb := congrArg (fun n => n.testBit (k - 1 - t)) h
    rw [Nat.testBit_shiftRight, Nat.testBit_shiftRight] at hb
    rwa [show 8 - k + (k - 1 - t) = 7 - t by omega] at hb
  · intro h
    refine Nat.eq_of_testBit_eq fun t => ?_
    rw [Nat.testBit_shiftRight, Nat.testBit_shiftRight]
    by_cases ht : t < k
    · have hb := h (k - 1 - t) (by omega)
      rwa [show 7 - (k - 1 - t) = 8 - k + t by omega] at hb
    · have hlt : ∀ z : UInt8, z.toNat.testBit (8 - k + t) = false := by
        intro z
        refine Nat.testBit_lt_two_pow (Nat.lt_of_lt_of_le z.toNat_lt ?_)
        exact Nat.pow_le_pow_right (by decide) (by omega)
      rw [hlt x, hlt y]

/-- two bytes are equal if all their bits are -/
theorem byte_eq {x y : UInt8} (h : ∀ t, t < 8 → x.toNat.testBit (7 - t) = y.toNat.testBit (7 - t)) :
    x = y := by
  apply UInt8.toNat_inj.mp
  refine Nat.eq_of_testBit_eq fun t => ?_
  by_cases ht : t < 8
  · have hb := h (7 - t) (by omega)
    rwa [show 7 - (7 - t) = t by omega] at hb
  · have hlt : ∀ z : UInt8, z.toNat.testBit t = false := by
      intro z
      exact Nat.testBit_lt_two_pow (Nat.lt_of_lt_of_le z.toNat_lt
        (Nat.pow_le_pow_right (by decide) (Nat.not_lt.mp ht)))
    rw [hlt x, hlt y]

theorem take_eq_iff {a b : List UInt8} {k : Nat} (ha : k ≤ a.length) (hb : k ≤ b.length) :
    a.take k = b.take k ↔ ∀ i, i < 8 * k → bit a i = bit b i := by
  constructor
  · intro h i hi
    rw [← bit_take a hi, h, bit_take b hi]
  · intro h
    apply List.ext_getElem (by rw [List.length_take, List.length_take]; omega)
    intro j hj _
    rw [List.length_take] at hj
    rw [List.getElem_take, List.getElem_take]
    refine byte_eq fun t ht => ?_
    have hb := h (8 * j + t) (by omega)
    unfold bit at hb
    rwa [show (8 * j + t) / 8 = j by omega, show (8 * j + t) % 8 = t by omega,
      List.getD_eq_getElem _ _ (by omega), List.getD_eq_getElem _ _ (by omega)] at hb

/-- the first `n` bits of two buffers -/
theorem bmemcmp_bit {a b : List UInt8} {n : Nat} (ha : n ≤ 8 * a.length) (hb : n ≤ 8 * b.length) :
    ∃ c, bmemcmp a b n = some c ∧ (c = true ↔ ∀ i, i < n → bit a i = bit b i) := by
  have hload : ∀ m : List UInt8, n ≤ 8 * m.length → load m 0 (n / 8) = some (m.take (n / 8)) :=
    fun m hm => load_eq_some.mpr ⟨by omega, by unfold slice; rw [List.drop_zero]⟩
  have hbytes := take_eq_iff (a := a) (b := b) (k := n / 8) (by omega) (by omega)
  unfold bmemcmp
  simp only [hload a ha, hload b hb, Option.bind_eq_bind, Option.bind_some]
  by_cases hc : a.take (n / 8) = b.take (n / 8) ∧ n % 8 > 0
  · rw [if_pos hc]
    obtain ⟨x, hx⟩ : ∃ x, a[n / 8]? = some x := ⟨_, List.getElem?_eq_getElem (by omega)⟩
    obtain ⟨y, hy⟩ : ∃ y, b[n / 8]? = some y := ⟨_, List.getElem?_eq_getElem (by omega)⟩
    rw [hx, hy]
    refine ⟨_, rfl, ?_⟩
    rw [decide_eq_true_iff, shiftRight_eq_iff x y hc.2 (by omega)]
    have hbit : ∀ (m : List UInt8) (z : UInt8), m[n / 8]? = some z → ∀ t, t < 8 →
        bit m (8 * (n / 8) + t) = z.toNat.testBit (7 - t) := by
      intro m z hz t ht
      unfold bit
      rw [List.getD_eq_getElem?_getD, show (8 * (n / 8) + t) / 8 = n / 8 by omega,
        show (8 * (n / 8) + t) % 8 = t by omega, hz]
      rfl
    constructor
    · intro h i hi
      by_cases hlt : i < 8 * (n / 8)
      · exact hbytes.mp hc.1 i hlt
      · have ht := h (i - 8 * (n / 8)) (by omega)
        rw [← hbit a x hx _ (by omega), ← hbit b y hy _ (by omega)] at ht
        rwa [show 8 * (n / 8) + (i - 8 * (n / 8)) = i by omega] at ht
    · intro h t ht
      rw [← hbit a x hx t (by omega), ← hbit b y hy t (by omega)]
      exact h _ (by omega)
  · rw [if_neg hc]
    refine ⟨_, rfl, ?_⟩
    rw [decide_eq_true_iff, hbytes]
    constructor
    · intro h i hi
      by_cases hz : n % 8 > 0
      · exact absurd ⟨hbytes.mpr h, hz⟩ hc
      · exact h i (by omega)
    · exact fun h i hi => h i (by omega)

/-- a comparison behind `&&` -/
theorem sameBits_bit {a b : List UInt8} (ha : a.length = 16) (hb : b.length = 16) {n : Int}
    (h0 : 0 ≤ n) (h128 : n ≤ 128) (c : Bool) : ∃ hit, sameBits c a b n = some hit ∧
      (hit = true ↔ c = true ∧ ∀ i, i < n.toNat → bit a i = bit b i) := by
  unfold sameBits
  cases c with
  | false => exact ⟨false, rfl, by simp⟩
  | true =>
    obtain ⟨hit, h1, h2⟩ := bmemcmp_bit (a := a) (b := b) (n := n.toNat) (by omega) (by omega)
    refine ⟨hit, ?_, by rw [h2, and_iff_right rfl]⟩
    rw [if_pos rfl, if_neg (Int.not_lt.mpr h0), h1]

/-! ## one prefix -/

/-- a prefix as the dump has it -/
structure IsPrefix (p : List UInt8 × Int) : Prop where
  length : p.1.length = 16
  mask : p.2 ≤ 128

/-- the rule can use the prefix: it is long enough, and begins with the prefix of the rule -/
def Matches (r : Rule) (p : List UInt8 × Int) : Prop :=
  r.prefix6len ≤ p.2 ∧ ∀ i, i < r.prefix6len.toNat → bit p.1 i = bit r.ipv6prefix i

section
variable {r : Rule} (hmap : r.lw4o6 = false) (h0 : 0 ≤ r.prefix6len) (h6 : r.ipv6prefix.length = 16)
include hmap h0 h6

/-- a longer prefix that can be used is copied over the one before, anything else is left out -/
theorem matchOne_cases {pd p : List UInt8 × Int} (hpd : pd.1.length = 16) (hp : IsPrefix p) :
    (pd.2 < p.2 ∧ Matches r p ∧ ∃ m, matchOne r pd p = some (m, p.2) ∧ m.length = 16 ∧
      ∀ i, i < 128 → bit m i = if i < p.2.toNat then bit p.1 i else bit pd.1 i) ∨
    (¬ (pd.2 < p.2 ∧ Matches r p) ∧ matchOne r pd p = some pd) := by
  have hmask := hp.mask
  have hlen := hp.length
  have h128 := r.hPrefix6len
  obtain ⟨hit, h1, h2⟩ := sameBits_bit hlen h6 h0 h128 (pd.2 < p.2 && p.2 ≥ r.prefix6len)
  have hhit : hit = true ↔ pd.2 < p.2 ∧ Matches r p := by
    rw [h2, Bool.and_eq_true, decide_eq_true_iff, decide_eq_true_iff, and_assoc]
    rfl
  have hsame : ∀ a b n, sameBits (r.lw4o6 && pd.2 < r.prefix6len && p.2 < r.prefix6len) a b n
      = some false := by
    intro a b n
    rw [hmap]
    rfl
  have hone : matchOne r pd p = if hit then (bmemcpy pd.1 p.1 p.2.toNat).map fun m => (m, p.2)
      else some pd := by
    unfold matchOne
    dsimp only
    rw [if_neg (by rw [hmap]; simp), h1, Option.bind_some, hsame, Option.bind_some]
    rfl
  rw [hone]
  by_cases hh : hit = true
  · obtain ⟨h3, h4⟩ := hhit.mp hh
    obtain ⟨m, h5, h7⟩ := bmemcpy_bit (a := pd.1) (b := p.1) (n := p.2.toNat) (by omega) (by omega)
    rw [if_pos hh, h5]
    have hml := bmemcpy_length h5
    exact .inl ⟨h3, h4, m, rfl, hml.trans hpd, fun i hi => h7 i (by omega)⟩
  · rw [if_neg hh]
    exact .inr ⟨fun h => hh (hhit.mpr h), rfl⟩

/-! ## the list of the prefixes -/

omit hmap h0 h6 in
/-- `q` is what there is to say about the prefixes `ps`, with `pd` at the start: nothing, or the first
one of the longest that can be used, in front of what `pd` was -/
def Picked (r : Rule) (pd : List UInt8) (ps : List (List UInt8 × Int)) (q : List UInt8 × Int) : Prop :=
  (q = (pd, -1) ∧ ∀ p ∈ ps, ¬ Matches r p) ∨
  ∃ pre p post, ps = pre ++ p :: post ∧ Matches r p ∧
    (∀ a ∈ pre, Matches r a → a.2 < p.2) ∧ (∀ a ∈ post, Matches r a → a.2 ≤ p.2) ∧
    q.2 = p.2 ∧ q.1.length = 16 ∧
    ∀ i, i < 128 → bit q.1 i = if i < p.2.toNat then bit p.1 i else bit pd i

omit hmap h0 h6 in
theorem Picked.le {pd : List UInt8} {ps : List (List UInt8 × Int)} {q : List UInt8 × Int}
    (h : Picked r pd ps q) {a : List UInt8 × Int} (ha : a ∈ ps) (hm : Matches r a) : a.2 ≤ q.2 := by
  obtain ⟨-, hnone⟩ | ⟨pre, p, post, rfl, hp, hpre, hpost, hq, -, -⟩ := h
  · exact absurd hm (hnone a ha)
  · rw [hq]
    rcases List.mem_append.mp ha with ha | ha
    · exact (hpre a ha hm).le
    · rcases List.mem_cons.mp ha with rfl | ha
      · exact le_refl _
      · exact hpost a ha hm

/-- one more prefix -/
theorem Picked.step {pd : List UInt8} (hpd : pd.length = 16) {ps : List (List UInt8 × Int)}
    {q p : List UInt8 × Int} (hq : Picked r pd ps q) (hp : IsPrefix p) :
    ∃ q', matchOne r q p = some q' ∧ Picked r pd (ps ++ [p]) q' := by
  have hlen : q.1.length = 16 := by
    obtain ⟨rfl, -⟩ | ⟨pre, p, post, -, -, -, -, -, h, -⟩ := hq
    · exact hpd
    · exact h
  obtain ⟨hlt, hm, m, he, hml, hbits⟩ | ⟨hno, he⟩ := matchOne_cases hmap h0 h6 hlen hp
  · refine ⟨_, he, .inr ⟨ps, p, [], rfl, hm, ?_, fun a h => absurd h List.not_mem_nil, rfl, hml, ?_⟩⟩
    · intro a ha hma
      exact (hq.le ha hma).trans_lt hlt
    · intro i hi
      show bit m i = _
      rw [hbits i hi]
      by_cases hi2 : i < p.2.toNat
      · rw [if_pos hi2, if_pos hi2]
      · rw [if_neg hi2, if_neg hi2]
        -- what the copies before have left behind this one is what was there at the start
        obtain ⟨rfl, -⟩ | ⟨pre, p0, post, -, -, -, -, hq2, -, hb⟩ := hq
        · rfl
        · rw [hb i hi, if_neg (by omega)]
  · refine ⟨q, he, ?_⟩
    obtain ⟨rfl, hnone⟩ | ⟨pre, p0, post, rfl, hp0, hpre, hpost, hq2, hl, hb⟩ := hq
    · refine .inl ⟨rfl, fun a ha hma => ?_⟩
      rcases List.mem_append.mp ha with ha | ha
      · exact hnone a ha hma
      · rw [List.mem_singleton.mp ha] at hma
        have hge := hma.1
        exact hno ⟨show (-1 : Int) < p.2 by omega, hma⟩
    · refine .inr ⟨pre, p0, post ++ [p], by rw [List.append_assoc, List.cons_append], hp0, hpre, ?_,
        hq2, hl, hb⟩
      intro a ha hma
      rcases List.mem_append.mp ha with ha | ha
      · exact hpost a ha hma
      · rw [List.mem_singleton.mp ha] at hma ⊢
        by_contra hgt
        exact hno ⟨by omega, hma⟩

/-- **The most specific delegated prefix**: behind it stays what the rule has there. -/
theorem matchPrefix_picks {ps : List (List UInt8 × Int)} (hps : ∀ p ∈ ps, IsPrefix p) :
    ∃ q, matchPrefix r ps (r.pd, -1) = some q ∧ Picked r r.pd ps q := by
  have hrun : ∀ (ps done : List (List UInt8 × Int)) (q : List UInt8 × Int), (∀ p ∈ ps, IsPrefix p) →
      Picked r r.pd done q → ∃ q', matchPrefix r ps q = some q' ∧ Picked r r.pd (done ++ ps) q' := by
    intro ps
    induction ps with
    | nil =>
      intro done q _ hq
      exact ⟨q, rfl, by rw [List.append_nil]; exact hq⟩
    | cons p ps ih =>
      intro done q hps hq
      obtain ⟨q1, h1, h2⟩ := Picked.step hmap h0 h6 r.hPd hq (hps p List.mem_cons_self)
      obtain ⟨q2, h3, h4⟩ := ih (done ++ [p]) q1 (fun a ha => hps a (List.mem_cons_of_mem p ha)) h2
      rw [List.append_assoc] at h4
      refine ⟨q2, ?_, h4⟩
      show (matchOne r q p).bind (matchPrefix r ps) = _
      rw [h1]
      exact h3
  exact hrun ps [] (r.pd, -1) hps (.inl ⟨rfl, fun p h => absurd h List.not_mem_nil⟩)

end

theorem anyAddr_length : (List.replicate 4 (0 : UInt8)).length = 4 := rfl

theorem noEalen : (-1 : Int) ≤ 48 := by decide

theorem noPrefix4len : (32 : Int) ≤ 32 := le_refl _

theorem noOffset : (-1 : Int) ≤ 16 := by decide

theorem noPsid : (-2147483648 : Int) ≤ -1 ∧ (-1 : Int) ≤ 65535 := by decide

theorem prefix6len_32 : (32 : Int) ≤ 128 := by decide

/-- `2001:db8::/32`, with `pd=::1` but without `pdlen` -/
def pdRule : Rule :=
  { prefix6len := 32
    ipv6prefix := [0x20, 0x01, 0x0d, 0xb8, 0, 0, 0, 0, 0, 0, 0, 0, 0, 0, 0, 0]
    pd := [0, 0, 0, 0, 0, 0, 0, 0, 0, 0, 0, 0, 0, 0, 0, 1]
    hIpv4prefix := anyAddr_length
    hEalen := noEalen
    hPrefix4len := noPrefix4len
    hPrefix6len := prefix6len_32
    hOffset := noOffset
    hPsidlen := noOffset
    hPsid := noPsid
    hPd := rfl }

/-- `2001:db8:12:3400::` -/
def customer : List UInt8 := [0x20, 0x01, 0x0d, 0xb8, 0x00, 0x12, 0x34, 0, 0, 0, 0, 0, 0, 0, 0, 0]

theorem customer_isPrefix : ∀ p ∈ [(customer, (48 : Int)), (customer, 56)], IsPrefix p := by
  intro p hp
  rcases List.mem_cons.mp hp with rfl | hp
  · exact ⟨rfl, by decide⟩
  · exact List.mem_singleton.mp hp ▸ ⟨rfl, by decide⟩

theorem matchPrefix_picks_two : ∃ q, matchPrefix pdRule [(customer, 48), (customer, 56)] (pdRule.pd, -1)
    = some q ∧ Picked pdRule pdRule.pd [(customer, 48), (customer, 56)] q :=
  matchPrefix_picks rfl (by decide) rfl customer_isPrefix

/-- the last bit of `pd=::1` stays behind the 56 bits of the delegated prefix -/
theorem stale_pd : matchPrefix pdRule [(customer, 56)] (pdRule.pd, -1)
      = some ([0x20, 0x01, 0x0d, 0xb8, 0x00, 0x12, 0x34, 0, 0, 0, 0, 0, 0, 0, 0, 1], 56) ∧
    ¬ ∀ q, matchPrefix pdRule [(customer, 56)] (pdRule.pd, -1) = some q →
      ∀ i, q.2.toNat ≤ i → i < 128 → bit q.1 i = false := by
  have h : matchPrefix pdRule [(customer, 56)] (pdRule.pd, -1)
      = some ([0x20, 0x01, 0x0d, 0xb8, 0x00, 0x12, 0x34, 0, 0, 0, 0, 0, 0, 0, 0, 1], 56) := by decide
  refine ⟨h, fun hall => ?_⟩
  exact absurd (hall _ h 127 (by decide) (by decide)) (by decide)

end MapCalc
