import Firmware.Map.Ports

/-!
# mapcalc: addresses

The addresses of a rule, bit by bit, against RFC 7597.

* `bmemcpy_bit`, `bmemcpys64_bit`  what the copies do;
* `findIpv4_bit`, `findIpv6_bit`   the addresses as they are computed;
* `Conforms`                       the addresses as they should be;
* `address_iff`                    when they are.
-/

set_option linter.unusedVariables false

namespace MapCalc
open Img Bits

/-! ## copies of bits -/

/-- the byte where a copy ends: its `bits` first bits are new -/
theorem mask_testBit (x y : UInt8) {bits t : Nat} (h0 : 0 < bits) (h8 : bits < 8) (ht : t < 8)
    {mask : UInt8} (hm : mask = (1 <<< UInt8.ofNat (8 - bits)) - 1) :
    ((x &&& mask) ||| (~~~mask &&& y)).toNat.testBit (7 - t)
      = if t < bits then y.toNat.testBit (7 - t) else x.toNat.testBit (7 - t) := by
  have hmask : ∀ b : Nat, b < 8 → 0 < b → ∀ t : Nat, t < 8 →
      ((1 : UInt8) <<< UInt8.ofNat (8 - b) - 1).toNat.testBit (7 - t) = !decide (t < b) := by decide
  have hinv : ∀ b : Nat, b < 8 → 0 < b → ∀ t : Nat, t < 8 →
      (~~~((1 : UInt8) <<< UInt8.ofNat (8 - b) - 1)).toNat.testBit (7 - t) = decide (t < b) := by
    decide
  subst hm
  rw [UInt8.toNat_or, UInt8.toNat_and, UInt8.toNat_and, Nat.testBit_or, Nat.testBit_and,
    Nat.testBit_and, hmask bits h8 h0 t ht, hinv bits h8 h0 t ht]
  by_cases hlt : t < bits
  · rw [if_pos hlt, decide_eq_true hlt]
    simp
  · rw [if_neg hlt, decide_eq_false hlt]
    simp

theorem bmemcpy_bit {a b : List UInt8} {n : Nat} (ha : n ≤ 8 * a.length) (hb : n ≤ 8 * b.length) :
    ∃ m, bmemcpy a b n = some m ∧
      ∀ i < 8 * a.length, bit m i = if i < n then bit b i else bit a i := by
  have hload : load b 0 (n / 8) = some (b.take (n / 8)) :=
    load_eq_some.mpr ⟨by omega, by unfold slice; rw [List.drop_zero]⟩
  have hlen : (b.take (n / 8)).length = n / 8 := by
    rw [List.length_take]
    omega
  have hstore : store a 0 (b.take (n / 8)) = some (b.take (n / 8) ++ a.drop (n / 8)) := by
    refine store_eq_some.mpr ⟨by omega, ?_⟩
    unfold poke
    rw [List.take_zero, List.nil_append, Nat.zero_add, hlen]
  have hbytes : ∀ i, i < 8 * a.length → bit (b.take (n / 8) ++ a.drop (n / 8)) i
      = if i < 8 * (n / 8) then bit b i else bit a i := by
    intro i hi
    split
    · next h => rw [bit_append_left _ (by omega), bit_take _ h]
    · next h =>
      rw [bit_append_right _ (by omega), hlen, bit_drop]
      congr 1
      omega
  unfold bmemcpy
  simp only [hload, hstore, Option.bind_eq_bind, Option.bind_some]
  by_cases h0 : n % 8 > 0
  · rw [if_pos h0]
    have hl : (b.take (n / 8) ++ a.drop (n / 8)).length = a.length := store_length hstore
    obtain ⟨x, hx⟩ : ∃ x, (b.take (n / 8) ++ a.drop (n / 8))[n / 8]? = some x :=
      ⟨_, List.getElem?_eq_getElem (by omega)⟩
    obtain ⟨y, hy⟩ : ∃ y, b[n / 8]? = some y := ⟨_, List.getElem?_eq_getElem (by omega)⟩
    rw [hx, hy, Option.bind_some, Option.bind_some]
    refine ⟨_, rfl, fun i hi => ?_⟩
    rw [bit_set _ (by omega)]
    by_cases hlast : i / 8 = n / 8
    · have hxb : x.toNat.testBit (7 - i % 8) = bit a i := by
        have hold := hbytes i hi
        rw [if_neg (by omega)] at hold
        rw [← hold]
        unfold bit
        rw [List.getD_eq_getElem?_getD, hlast, hx]
        rfl
      have hyb : y.toNat.testBit (7 - i % 8) = bit b i := by
        unfold bit
        rw [List.getD_eq_getElem?_getD, hlast, hy]
        rfl
      rw [if_pos hlast, mask_testBit x y h0 (by omega) (by omega) rfl, hxb, hyb]
      congr 1
      exact propext ⟨by omega, by omega⟩
    · rw [if_neg hlast, hbytes i hi]
      congr 1
      exact propext ⟨by omega, by omega⟩
  · rw [if_neg h0]
    refine ⟨_, rfl, fun i hi => ?_⟩
    rw [hbytes i hi, show 8 * (n / 8) = n by omega]

theorem bmemcpys64_bit {a b : List UInt8} {f n : Nat} (ha : n ≤ 8 * a.length) (hn : f % 8 + n < 64)
    (hb : f + n < 8 * b.length) :
    ∃ m, bmemcpys64 a b f n = some m ∧
      ∀ i < 8 * a.length, bit m i = if i < n then bit b (f + i) else bit a i := by
  generalize hc : (f + n) / 8 - f / 8 + 1 = cnt
  have hload : load b (f / 8) cnt = some (slice b (f / 8) cnt) :=
    load_eq_some.mpr ⟨by omega, rfl⟩
  have hlen : (slice b (f / 8) cnt).length = cnt := slice_length _ _ _ (by omega)
  have hstore : store (List.replicate 8 0) 0 (slice b (f / 8) cnt)
      = some (slice b (f / 8) cnt ++ List.replicate (8 - cnt) 0) := by
    refine store_eq_some.mpr ⟨by rw [List.length_replicate]; omega, ?_⟩
    unfold poke
    rw [List.take_zero, List.nil_append, Nat.zero_add, hlen, List.drop_replicate]
  obtain ⟨m, h1, h2⟩ := @bmemcpy_bit a (toBytes 8 (ofBytes (slice b (f / 8) cnt ++
    List.replicate (8 - cnt) 0) <<< (f % 8))) n ha (by rw [toBytes_length]; omega)
  refine ⟨m, ?_, ?_⟩
  · unfold bmemcpys64
    rw [if_neg (by omega)]
    simp only [Int.toNat_natCast, hc, hload, hstore, Option.bind_eq_bind, Option.bind_some, h1]
  · intro i hi
    rw [h2 i hi]
    split
    · next hin =>
      have hbuf : (slice b (f / 8) cnt ++ List.replicate (8 - cnt) 0).length = 8 := by
        rw [List.length_append, hlen, List.length_replicate]
        omega
      rw [bit_toBytes 8 _ (by omega), Nat.testBit_shiftLeft, ofBytes_testBit, hbuf,
        decide_eq_true (by omega), decide_eq_true (by omega), Bool.true_and, Bool.true_and,
        bit_append_left _ (by rw [hlen]; omega)]
      unfold slice
      rw [bit_take _ (by omega), bit_drop]
      congr 1
      omega
    · rfl

theorem store_bit {a d : List UInt8} {k : Nat} (h : k + d.length ≤ a.length) :
    ∃ m, store a k d = some m ∧ m.length = a.length ∧ ∀ i, bit m i =
      if 8 * k ≤ i ∧ i < 8 * (k + d.length) then bit d (i - 8 * k) else bit a i := by
  have hs : store a k d = some (poke a k d) := store_eq_some.mpr ⟨h, rfl⟩
  refine ⟨poke a k d, hs, store_length hs, fun i => ?_⟩
  have hk : (a.take k).length = k := by
    rw [List.length_take]
    omega
  unfold poke
  by_cases h1 : i < 8 * k
  · rw [bit_append_left _ (by omega), bit_take _ h1, if_neg (by omega)]
  · rw [bit_append_right _ (by omega), hk]
    by_cases h2 : i < 8 * (k + d.length)
    · rw [bit_append_left _ (by omega), if_pos ⟨by omega, h2⟩]
    · rw [bit_append_right _ (by omega), bit_drop, if_neg (by omega)]
      congr 1
      omega

/-! ## the delegated prefix -/

theorem matchOne_length {r : Rule} {pd p q : List UInt8 × Int} (h : matchOne r pd p = some q) :
    q.1.length = pd.1.length := by
  simp only [matchOne] at h
  obtain ⟨hit, -, h1⟩ := Option.bind_eq_some_iff.mp h
  split at h1
  · obtain ⟨m, h2, h3⟩ := Option.map_eq_some_iff.mp h1
    rw [← h3]
    exact bmemcpy_length h2
  · obtain ⟨hit2, -, h2⟩ := Option.bind_eq_some_iff.mp h1
    split at h2
    · obtain ⟨m, h3, h4⟩ := Option.map_eq_some_iff.mp h2
      rw [← h4]
      exact bmemcpy_length h3
    · rw [← Option.some.inj h2]

theorem matchPrefix_length {r : Rule} {q : List UInt8 × Int} :
    ∀ {ps : List (List UInt8 × Int)} {pd : List UInt8 × Int}, matchPrefix r ps pd = some q →
      q.1.length = pd.1.length
  | [], pd, h => by rw [← Option.some.inj h]
  | p :: ps, pd, h => by
    obtain ⟨pd1, h1, h2⟩ := Option.bind_eq_some_iff.mp h
    rw [matchPrefix_length h2, matchOne_length h1]

theorem findIn_length {argv1 : String} {r : Rule} {q : List UInt8 × Int} :
    ∀ {cs : List Iface} {pd : List UInt8 × Int}, findIn argv1 r cs pd = some q →
      q.1.length = pd.1.length
  | [], pd, h => by rw [← Option.some.inj h]
  | c :: cs, pd, h => by
    unfold findIn at h
    split at h
    · exact findIn_length h
    · obtain ⟨pd1, h1, h2⟩ := Option.bind_eq_some_iff.mp h
      obtain ⟨pd2, h3, h4⟩ := Option.bind_eq_some_iff.mp h2
      have hl : pd2.1.length = pd.1.length := by
        rw [matchPrefix_length h3, matchPrefix_length h1]
      split at h4
      · rw [← Option.some.inj h4, hl]
      · rw [findIn_length h4, hl]

theorem findPd_length {argv1 : String} {dump : List Iface} {r : Rule} {q : List UInt8 × Int}
    (h : findPd argv1 dump r = some q) : q.1.length = 16 := by
  unfold findPd at h
  split at h
  · rw [findIn_length h]
    exact r.hPd
  · rw [← Option.some.inj h]
    exact r.hPd

/-! ## the addresses of a rule -/

/-- RFC 7597 with lengths `p4`, `p6`, `ea` and `pl` of the IPv4 prefix, the IPv6 prefix, the
embedded address bits and the delegated prefix: the IPv4 address is its prefix, embedded address
bits and zeros; outside the delegated prefix the IPv6 address has the IPv4 address in bytes 10 to 13
and the PSID, right-aligned, in bytes 14 and 15. -/
structure Conforms (p4 p6 ea pl : Nat) ( ipv4prefix pd ipv4addr ipv6addr : List UInt8) : Prop where
  ipv4 : ∀ i < 32, bit ipv4addr i = if i < p4 then bit ipv4prefix i
    else decide (i - p4 < min ea (32 - p4)) && bit pd (p6 + (i - p4))
  ipv6_pd : ∀ i < pl, bit ipv6addr i = bit pd i
  ipv6_ipv4 : ∀ i < 32, pl ≤ 80 + i → bit ipv6addr (80 + i) = bit ipv4addr i
  ipv6_psid : ∀ j < 16, pl ≤ 127 - j →
    bit ipv6addr (127 - j) = (decide (j < p4 + ea - 32) && bit pd (p6 + ea - 1 - j))

/-- a rule of type `map-e` or `map-t` without `psidlen`, with its delegated prefix -/
structure Derived (r : Rule) (p4 p6 ea pl : Nat) : Prop where
  map : r.lw4o6 = false
  psidlen : r.psidlen ≤ 0
  prefix4len : r.prefix4len = p4
  prefix6len : r.prefix6len = p6
  ealen : ealenOf r pl = ea
  ea_le : ea ≤ 48
  inside : p6 + ea ≤ pl
  pl_le : pl ≤ 128

section
variable {r : Rule} {p4 p6 ea pl : Nat} (d : Derived r p4 p6 ea pl)
include d

theorem Derived.p4_le : p4 ≤ 32 := by
  have := r.hPrefix4len
  rw [d.prefix4len] at this
  omega

theorem Derived.psidlenGiven : psidlenGiven r ≤ 0 := by
  unfold MapCalc.psidlenGiven
  rw [if_neg (by simp [d.map])]
  exact d.psidlen

theorem Derived.psidlenOf : psidlenOf r pl = (p4 : Int) + ea - 32 := by
  unfold MapCalc.psidlenOf
  rw [if_pos d.psidlenGiven, d.ealen, d.prefix4len]
  omega

/-- the IPv4 address: all bits behind the prefix are copied -/
theorem findIpv4_bit {mem : List UInt8} (hmem : 20 < mem.length) :
    ∃ m, findIpv4 r mem pl = some m ∧ m.length = 4 ∧ ∀ i < 32, bit m i =
      if i < p4 then bit r.ipv4prefix i else bit mem (p6 + (i - p4)) := by
  have h4 := d.p4_le
  have hin := d.inside
  have hpl := d.pl_le
  have hcount : ealenOf r pl - psidlenOf r pl = ((32 - p4 : Nat) : Int) := by
    rw [d.ealen, d.psidlenOf]
    omega
  obtain ⟨a, h1, h2⟩ := @bmemcpys64_bit (List.replicate 4 0) mem p6 (32 - p4)
    (by rw [List.length_replicate]; omega) (by omega) (by omega)
  have ha : a.length = 4 := bmemcpys64_length h1
  obtain ⟨m, h3, h5⟩ := @bmemcpy_bit (toBytes 4 (ofBytes a >>> (r.prefix4len % 32).toNat))
    r.ipv4prefix p4 (by rw [toBytes_length]; omega) (by rw [r.hIpv4prefix]; omega)
  refine ⟨m, ?_, by rw [bmemcpy_length h3, toBytes_length], ?_⟩
  · unfold findIpv4
    rw [if_pos (by simp [embedded]), hcount, d.prefix6len, h1, Option.bind_some]
    rw [show r.prefix4len.toNat = p4 by rw [d.prefix4len]; rfl]
    exact h3
  · intro i hi
    rw [h5 i (by rw [toBytes_length]; omega)]
    split
    · rfl
    · next hip =>
      rw [bit_toBytes 4 _ (by omega), Nat.testBit_shiftRight, ofBytes_testBit, ha, d.prefix4len,
        show ((p4 : Int) % 32).toNat = p4 by omega, decide_eq_true (by omega), Bool.true_and,
        h2 _ (by rw [List.length_replicate]; omega), if_pos (by omega)]
      congr 1
      omega

omit d in
/-- the PSID is shifted to the right end of its 16 bits -/
theorem psid16Of_shift {m : List UInt8} {k j : Nat} (hml : m.length = 2) (hk : k ≤ 16)
    (hlen : psidlenOf r pl = (k : Int)) (hj : j < 16) :
    bit (psid16Of r pl (ofBytes m)) (15 - j) = (decide (j < k) && bit m (k - 1 - j)) := by
  have hlt : ofBytes m < 65536 := by
    have := ofBytes_lt m
    rw [hml] at this
    omega
  have hsar : psidRight r pl (ofBytes m) = ((ofBytes m / 2 ^ (16 - k) : Nat) : Int) := by
    unfold psidRight sar
    rw [hlen, show ((16 - (k : Int)) % 32).toNat = 16 - k by omega]
    push_cast
    rfl
  have hdiv : ofBytes m / 2 ^ (16 - k) ≤ ofBytes m := Nat.div_le_self _ _
  have hmod : (((ofBytes m / 2 ^ (16 - k) : Nat) : Int) % 65536).toNat
      = ofBytes m / 2 ^ (16 - k) := by
    generalize ofBytes m / 2 ^ (16 - k) = q at hdiv ⊢
    omega
  unfold psid16Of
  rw [hsar, hmod, bit_toBytes 2 _ (by omega), Nat.testBit_div_two_pow, ofBytes_testBit, hml]
  by_cases hjk : j < k
  · rw [decide_eq_true (by omega), decide_eq_true hjk]
    congr 2
    omega
  · rw [decide_eq_false (by omega), decide_eq_false hjk, Bool.false_and, Bool.false_and]

theorem findPsid_some {mem : List UInt8} (hmem : 20 < mem.length) :
    ∃ psid, findPsid r mem pl = some psid ∧ ∀ j < 16, bit (psid16Of r pl psid) (15 - j) =
      if 32 ≤ p4 + ea ∧ p4 + ea ≤ 48 then decide (j < p4 + ea - 32) && bit mem (p6 + ea - 1 - j)
      else true := by
  have h4 := d.p4_le
  have hin := d.inside
  have hpl := d.pl_le
  have hgiven : psidGiven r = -1 := if_pos d.psidlenGiven
  by_cases hfit : 32 ≤ p4 + ea ∧ p4 + ea ≤ 48
  · obtain ⟨k, hk⟩ : ∃ k, p4 + ea = 32 + k := ⟨p4 + ea - 32, by omega⟩
    have hlen : psidlenOf r pl = (k : Int) := by
      rw [d.psidlenOf]
      omega
    obtain ⟨m, h1, h2⟩ := @bmemcpys64_bit [0, 0] mem (p6 + ea - k) k (by simp; omega) (by omega)
      (by omega)
    have hml : m.length = 2 := bmemcpys64_length h1
    refine ⟨(ofBytes m : Int), ?_, ?_⟩
    · simp only [findPsid]
      rw [if_pos (by rw [hgiven, hlen, d.ealen]; omega), hlen, d.ealen, d.prefix6len,
        show (p6 : Int) + ea - k = ((p6 + ea - k : Nat) : Int) by omega, h1]
      rfl
    · intro j hj
      rw [if_pos hfit, psid16Of_shift hml (by omega) hlen hj]
      by_cases hjk : j < k
      · rw [decide_eq_true hjk, decide_eq_true (by omega), h2 _ (by simp; omega), if_pos (by omega)]
        congr 2
        omega
      · rw [decide_eq_false hjk, decide_eq_false (by omega), Bool.false_and, Bool.false_and]
  · refine ⟨-1, ?_, ?_⟩
    · simp only [findPsid]
      rw [if_neg (by rw [d.psidlenOf]; omega), hgiven]
    · intro j hj
      have hsar : psidRight r pl (-1) = -1 := by
        unfold psidRight sar
        rw [Int.neg_one_ediv, Int.sign_eq_one_of_pos (by positivity)]
      unfold psid16Of
      rw [if_neg hfit, hsar, bit_toBytes 2 _ (by omega)]
      have : ∀ j : Nat, j < 16 → ((-1 : Int) % 65536).toNat.testBit (8 * 2 - 1 - (15 - j)) = true := by
        decide
      exact this j hj

omit d in
theorem findIpv6_bit {pd v4 psid16 : List UInt8} (hpd : pd.length = 16) (hv4 : v4.length = 4)
    (hps : psid16.length = 2) (hpl : pl ≤ 128) :
    ∃ m, findIpv6 false pd pl v4 psid16 = some m ∧ ∀ i < 128, bit m i =
      if i < pl then bit pd i else if i < 80 then false
      else if i < 112 then bit v4 (i - 80) else bit psid16 (i - 112) := by
  obtain ⟨a, h1, hal, h2⟩ := @store_bit (List.replicate 16 0) v4 10 (by simp [hv4])
  rw [List.length_replicate] at hal
  obtain ⟨b, h3, hbl, h4⟩ := @store_bit a psid16 14 (by simp [hps, hal])
  rw [hal] at hbl
  obtain ⟨m, h5, h6⟩ := @bmemcpy_bit b pd pl (by omega) (by omega)
  refine ⟨m, ?_, ?_⟩
  · unfold findIpv6
    rw [if_pos (by omega)]
    simp only [Bool.false_eq_true, if_false, h1, h3, Option.bind_some, Int.toNat_natCast, h5]
  · intro i hi
    rw [h6 i (by omega), h4, h2, hv4, hps, bit_zeros]
    split
    · rfl
    · by_cases h80 : i < 80
      · rw [if_neg (by omega), if_neg (by omega), if_pos h80]
      · rw [if_neg h80]
        by_cases h112 : i < 112
        · rw [if_neg (by omega), if_pos (by omega), if_pos h112]
        · rw [if_pos (by omega), if_neg h112]

/-- what a derived rule computes -/
theorem mainRule_derived {argv1 : String} {dump : List Iface} {behind pd : List UInt8}
    (hb : 8 ≤ behind.length) (hpd : findPd argv1 dump r = some (pd, (pl : Int))) :
    ∃ o, mainRule false argv1 dump behind r = some (some o) ∧
      (∀ i < 32, bit o.ipv4addr i =
        if i < p4 then bit r.ipv4prefix i else bit (pd ++ behind) (p6 + (i - p4))) ∧
      (∀ i < pl, bit o.ipv6addr i = bit pd i) ∧
      (∀ i < 32, pl ≤ 80 + i → bit o.ipv6addr (80 + i) = bit o.ipv4addr i) ∧
      ∀ j < 16, pl ≤ 127 - j → bit o.ipv6addr (127 - j) =
        if 32 ≤ p4 + ea ∧ p4 + ea ≤ 48 then
          decide (j < p4 + ea - 32) && bit (pd ++ behind) (p6 + ea - 1 - j)
        else true := by
  have hl : pd.length = 16 := findPd_length hpd
  have hpl := d.pl_le
  have hmem : 20 < (pd ++ behind).length := by
    rw [List.length_append]
    omega
  obtain ⟨v4, h1, hv4, h2⟩ := findIpv4_bit d hmem
  obtain ⟨psid, h3, h4⟩ := findPsid_some d hmem
  obtain ⟨v6, h5, h6⟩ := @findIpv6_bit pl pd v4 (psid16Of r pl psid) hl hv4 (toBytes_length _ _)
    hpl
  have hvalid : invalid r pl = false := by
    have h44 := d.p4_le
    unfold invalid
    rw [d.psidlenOf, d.ealen, d.prefix4len, d.prefix6len]
    simp only [Bool.or_eq_false_iff, decide_eq_false_iff_not]
    omega
  obtain ⟨o, ho, ho4, ho6⟩ : ∃ o, mainRule false argv1 dump behind r = some (some o) ∧
      o.ipv4addr = v4 ∧ o.ipv6addr = v6 := by
    unfold mainRule
    rw [hpd]
    show ∃ o, mainRulePd false behind r pd pl = some (some o) ∧ _
    unfold mainRulePd
    rw [h3, Option.bind_some, hvalid, if_neg (by simp), h1, Option.bind_some,
      if_neg (by omega), h5, Option.map_some]
    exact ⟨_, rfl, rfl, rfl⟩
  subst ho4 ho6
  refine ⟨o, ho, h2, ?_, ?_, ?_⟩
  · intro i hi
    rw [h6 i (by omega), if_pos hi]
  · intro i hi hle
    rw [h6 _ (by omega), if_neg (by omega), if_neg (by omega), if_pos (by omega),
      Nat.add_sub_cancel_left]
  · intro j hj hle
    rw [h6 _ (by omega), if_neg (by omega), if_neg (by omega), if_neg (by omega), ← h4 j hj]
    congr 1
    omega

/-- **The addresses** of a rule are those of RFC 7597 when its PSID has 0 to 16 bits; else all bits
behind the IPv4 prefix are copied and the PSID is 0xffff. -/
theorem address_iff {argv1 : String} {dump : List Iface} {behind pd : List UInt8}
    (hb : 8 ≤ behind.length) (hpd : findPd argv1 dump r = some (pd, (pl : Int))) :
    ∃ o, mainRule false argv1 dump behind r = some (some o) ∧
      (Conforms p4 p6 ea pl r.ipv4prefix pd o.ipv4addr o.ipv6addr ↔
        (32 ≤ p4 + ea ∧ p4 + ea ≤ 48) ∨
        (p4 + ea < 32 ∧ pl = 128 ∧
          ∀ j, ea ≤ j → j < 32 - p4 → bit (pd ++ behind) (p6 + j) = false) ∨
        (48 < p4 + ea ∧ ∀ j < 16, pl ≤ 127 - j → bit pd (p6 + ea - 1 - j) = true)) := by
  obtain ⟨o, ho, hv4, hv6, hv64, hps⟩ := mainRule_derived d hb hpd
  have hl : pd.length = 16 := findPd_length hpd
  have h4 := d.p4_le
  have hin := d.inside
  have hpl := d.pl_le
  refine ⟨o, ho, ?_, ?_⟩
  · intro c
    by_cases hlo : p4 + ea < 32
    · refine .inr (.inl ⟨hlo, ?_, ?_⟩)
      · by_contra hne
        have h1 := c.ipv6_psid 0 (by omega) (by omega)
        rw [hps 0 (by omega) (by omega), if_neg (by omega), decide_eq_false (by omega)] at h1
        exact absurd h1 (by simp)
      · intro j hj hlt
        have h1 := c.ipv4 (p4 + j) (by omega)
        rw [hv4 _ (by omega), if_neg (by omega), if_neg (by omega), decide_eq_false (by omega),
          Nat.add_sub_cancel_left] at h1
        exact h1
    · by_cases hhi : p4 + ea ≤ 48
      · exact .inl ⟨by omega, hhi⟩
      · refine .inr (.inr ⟨by omega, fun j hj hle => ?_⟩)
        have h1 := c.ipv6_psid j hj hle
        rw [hps j hj hle, if_neg (by omega), decide_eq_true (by omega), Bool.true_and] at h1
        exact h1.symm
  · intro hc
    refine ⟨fun i hi => ?_, hv6, hv64, fun j hj hle => ?_⟩
    · rw [hv4 i hi]
      split
      · rfl
      · by_cases hea : i - p4 < ea
        · rw [decide_eq_true (by omega), Bool.true_and, bit_append_left _ (by omega)]
        · rw [decide_eq_false (by omega), Bool.false_and]
          rcases hc with hc | ⟨-, -, hz⟩ | hc
          · omega
          · exact hz _ (by omega) (by omega)
          · omega
    · rw [hps j hj hle]
      rcases hc with hc | ⟨-, hpl128, -⟩ | ⟨hc, hones⟩
      · rw [if_pos hc]
        by_cases hjk : j < p4 + ea - 32
        · rw [bit_append_left _ (by omega)]
        · rw [decide_eq_false hjk, Bool.false_and, Bool.false_and]
      · omega
      · rw [if_neg (by omega), decide_eq_true (by omega), Bool.true_and, hones j hj hle]

end

theorem rfcRule_derived : Derived rfcRule 24 40 16 56 :=
  ⟨rfl, by decide, rfl, rfl, rfl, by decide, by decide, by decide⟩

theorem address_iff_rfc : ∃ o, mainRule false "*" [] (List.replicate 8 0) rfcRule = some (some o) ∧
    Conforms 24 40 16 56 [192, 0, 2, 0] rfcRule.pd o.ipv4addr o.ipv6addr := by
  obtain ⟨o, h1, h2⟩ := @address_iff rfcRule 24 40 16 56 rfcRule_derived "*" [] (List.replicate 8 0)
    rfcRule.pd (by decide) rfl
  exact ⟨o, h1, h2.mpr (.inl ⟨by decide, by decide⟩)⟩

/-- a rule that gives every customer 256 IPv4 addresses: no PSID -/
def prefixRule : Rule :=
  { rfcRule with
    ealen := 8, prefix4len := 16, prefix6len := 40, pdlen := 48, ipv4prefix := [10, 1, 0, 0]
    pd := [0x20, 0x01, 0x0d, 0xb8, 0x00, 0x12, 0, 0, 0, 0, 0, 0, 0, 0, 0, 0]
    hEalen := by decide
    hPrefix4len := by decide
    hPrefix6len := rfcRule.hPrefix6len
    hIpv4prefix := by decide
    hPd := by decide }

theorem prefixRule_derived : Derived prefixRule 16 40 8 48 :=
  ⟨rfl, by decide, rfl, rfl, rfl, by decide, by decide, by decide⟩

theorem address_prefixRule : Derived prefixRule 16 40 8 48 ∧
    ∃ o, mainRule false "*" [] (List.replicate 8 0) prefixRule = some (some o) ∧
      o.ipv6addr = [0x20, 0x01, 0x0d, 0xb8, 0x00, 0x12, 0, 0, 0, 0, 10, 1, 0x12, 0, 0xff, 0xff] ∧
      ¬ Conforms 16 40 8 48 [10, 1, 0, 0] prefixRule.pd o.ipv4addr o.ipv6addr := by
  obtain ⟨o, ho⟩ : ∃ o, mainRule false "*" [] (List.replicate 8 0) prefixRule = some (some o) :=
    ⟨_, rfl⟩
  have h6 : o.ipv6addr
      = [0x20, 0x01, 0x0d, 0xb8, 0x00, 0x12, 0, 0, 0, 0, 10, 1, 0x12, 0, 0xff, 0xff] := by
    rw [← Option.some.inj (Option.some.inj ho)]
    decide +kernel
  refine ⟨prefixRule_derived, o, ho, h6, fun c => ?_⟩
  have h := c.ipv6_psid 0 (by decide) (by decide)
  rw [h6] at h
  exact absurd h (by decide +kernel)

end MapCalc
