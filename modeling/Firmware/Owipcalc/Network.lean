import Firmware.Lib.Prefixes
import Firmware.Owipcalc.Arith

/-!
# owipcalc: ranges

The operations `network`, `broadcast`, `netmask` and `contains` against the ranges of addresses they
are about, and `6to4`.

* `range`            the addresses with the same prefix;
* `cidr_ranges`      the operations are right for every prefix but the empty one, and `6to4` is
                     right on a host with network order, or for a palindrome.
-/

set_option linter.unusedVariables false

namespace Owipcalc
open Word Bits Prefixes

/-- the numbers of the addresses in the range of `a` -/
def range (big : Bool) {f : Family} (a : Cidr f) : Set Nat :=
  block f.width a.prefixLen.toNat (addrVal big f a.addr)

theorem range_subset_iff {big : Bool} {f : Family} {a b : Cidr f} (ha : a.prefixLen.toNat ≤ f.width)
    (hb : b.prefixLen.toNat ≤ f.width) : range big b ⊆ range big a ↔
      a.prefixLen.toNat ≤ b.prefixLen.toNat ∧ addrVal big f b.addr / 2 ^ (f.width - a.prefixLen.toNat)
        = addrVal big f a.addr / 2 ^ (f.width - a.prefixLen.toNat) := block_subset_iff ha hb

/-- the operation pushes an address with a number in `P` -/
def Pushes (big : Bool) (f : Family) (r : Result) (s : State) (p : UInt32) (P : Nat → Prop) : Prop :=
  ∃ x : f.Addr, r = some (true, s.push ⟨p, x⟩) ∧ P (addrVal big f x)

/-- the operation prints 1 if `P`, and 0 if not -/
def Answers (r : Result) (s : State) (P : Prop) : Prop := ∃ t, r = some (s.answer t) ∧ (t = true ↔ P)

theorem not_pushes {big : Bool} {f : Family} {s : State} {p : UInt32} {P : Nat → Prop} :
    ¬Pushes big f none s p P := fun ⟨_, h, _⟩ => absurd h (by simp)

theorem not_answers {s : State} {P : Prop} : ¬Answers none s P := fun ⟨_, h, _⟩ => absurd h (by simp)

/-! ## masks -/

theorem shl_toNat : ∀ n < 32, ((1 : UInt32) <<< UInt32.ofNat n).toNat = 2 ^ n := by decide

theorem mask8_toNat : ∀ n < 8, (~~~((1 <<< UInt8.ofNat n) - 1) : UInt8).toNat = 2 ^ 8 - 2 ^ n := by
  decide

section
variable {big : Bool} {a b : Cidr .inet} {s : State}

/-- the shift of the operations, for a prefix that is not empty -/
theorem shl_prefix (h1 : 1 ≤ a.prefixLen.toNat) (h2 : a.prefixLen.toNat ≤ 32) :
    ∃ m, shl (32 - a.prefixLen) = some m ∧ (m - 1).toNat = 2 ^ (32 - a.prefixLen.toNat) - 1 ∧
      (~~~(m - 1)).toNat = 2 ^ 32 - 2 ^ (32 - a.prefixLen.toNat) := by
  obtain ⟨hm, -⟩ := htonl_prefix h1 h2
  have h : 32 - a.prefixLen = UInt32.ofNat (32 - a.prefixLen.toNat) := by
    apply UInt32.toNat_inj.mp
    rw [UInt32.toNat_sub, UInt32.toNat_ofNat', show (32 : UInt32).toNat = 32 from rfl]
    omega
  have hv : ((1 : UInt32) <<< (32 - a.prefixLen)).toNat = 2 ^ (32 - a.prefixLen.toNat) := by
    rw [h, shl_toNat _ (by omega)]
  have hpos : 0 < 2 ^ (32 - a.prefixLen.toNat) := Nat.two_pow_pos _
  have hle : 2 ^ (32 - a.prefixLen.toNat) ≤ 2 ^ 32 := Nat.pow_le_pow_right (by decide) (by omega)
  have hsub : ((1 : UInt32) <<< (32 - a.prefixLen) - 1).toNat = 2 ^ (32 - a.prefixLen.toNat) - 1 := by
    rw [UInt32.toNat_sub_of_le, hv]
    · rfl
    · rw [UInt32.le_iff_toNat_le, hv]
      exact hpos
  refine ⟨_, hm, hsub, ?_⟩
  rw [UInt32.toNat_not, hsub, show UInt32.size = 2 ^ 32 from rfl]
  omega

/-- an empty prefix is a shift by 32 -/
theorem shl_empty (h : a.prefixLen.toNat = 0) : shl (32 - a.prefixLen) = none := by
  rw [show a.prefixLen = 0 from UInt32.toNat_inj.mp h]
  rfl

theorem addrVal4 (x : UInt32) : addrVal big .inet x = (ntohl big x).toNat := (ntohl_toNat big x).symm

theorem addrVal4_htonl (x : UInt32) : addrVal big .inet (htonl big x) = x.toNat := by
  rw [addrVal4, ntohl_htonl]

theorem addrVal4_lt (x : UInt32) : addrVal big .inet x < 2 ^ 32 := addrVal_lt big .inet x

theorem addrVal4_and (x m : UInt32) :
    addrVal big .inet (x &&& htonl big m) = addrVal big .inet x &&& m.toNat := by
  rw [addrVal4, addrVal4, ntohl_and, ntohl_htonl, UInt32.toNat_and]

theorem addrVal4_or (x m : UInt32) :
    addrVal big .inet (x ||| htonl big m) = addrVal big .inet x ||| m.toNat := by
  rw [addrVal4, addrVal4, ntohl_or, ntohl_htonl, UInt32.toNat_or]

/-! ## IPv4 -/

/-- an operation that starts with the shift -/
theorem shift_iff {Q : Result → Prop} {k : UInt32 → Bool × State} (h2 : a.prefixLen.toNat ≤ 32)
    (hnone : ¬Q none) (hk : ∀ m : UInt32, (m - 1).toNat = 2 ^ (32 - a.prefixLen.toNat) - 1 →
      (~~~(m - 1)).toNat = 2 ^ 32 - 2 ^ (32 - a.prefixLen.toNat) → Q (some (k m))) :
    Q ((shl (32 - a.prefixLen)).bind fun m => some (k m)) ↔ 0 < a.prefixLen.toNat := by
  by_cases h1 : 0 < a.prefixLen.toNat
  · obtain ⟨m, hm, hones, hmask⟩ := shl_prefix h1 h2
    rw [hm]
    exact iff_of_true (hk m hones hmask) h1
  · rw [shl_empty (by omega)]
    exact iff_of_false hnone h1

theorem network4_iff (h2 : a.prefixLen.toNat ≤ 32) :
    Pushes big .inet (cidrNetwork4 big a s) s 32 (IsLeast (range big a)) ↔ 0 < a.prefixLen.toNat := by
  refine shift_iff (Q := fun r => Pushes big .inet r s 32 (IsLeast (range big a))) h2 not_pushes ?_
  intro m _ hmask
  refine ⟨_, rfl, ?_⟩
  rw [addrVal4_and, hmask, keep (by omega) (addrVal4_lt _)]
  exact isLeast_lowest 32 _ _

theorem broadcast4_iff (h2 : a.prefixLen.toNat ≤ 32) :
    Pushes big .inet (cidrBroadcast4 big a s) s 32 (IsGreatest (range big a)) ↔
      0 < a.prefixLen.toNat := by
  refine shift_iff (Q := fun r => Pushes big .inet r s 32 (IsGreatest (range big a))) h2 not_pushes ?_
  intro m hones _
  refine ⟨_, rfl, ?_⟩
  rw [addrVal4_or, hones, fill]
  exact isGreatest_highest 32 _ _

/-- the first `p` bits are set -/
def leading (p n : Nat) : Prop := ∀ i, i < 32 → n.testBit (31 - i) = decide (i < p)

theorem netmask4_iff (h2 : a.prefixLen.toNat ≤ 32) :
    Pushes big .inet (cidrNetmask4 big a s) s 32 (leading a.prefixLen.toNat) ↔ 0 < a.prefixLen.toNat := by
  refine shift_iff (Q := fun r => Pushes big .inet r s 32 (leading a.prefixLen.toNat)) h2 not_pushes ?_
  intro m _ hmask
  refine ⟨_, rfl, ?_⟩
  rw [addrVal4_htonl, hmask]
  intro i hi
  rw [testBit_mask (by omega), decide_eq_true (by omega : 31 - i < 32), Bool.and_true]
  exact decide_eq_decide.mpr (by omega)

theorem contains4_iff (h2 : a.prefixLen.toNat ≤ 32) (hb : b.prefixLen.toNat ≤ 32) :
    Answers (cidrContains4 big a b s) s (range big b ⊆ range big a) ↔ 0 < a.prefixLen.toNat := by
  refine shift_iff (Q := fun r => Answers r s (range big b ⊆ range big a)) h2 not_answers ?_
  intro m _ hmask
  have hnet (x : UInt32) : addrVal big .inet (x &&& htonl big (~~~(m - 1)))
      = 2 ^ (32 - a.prefixLen.toNat) * (addrVal big .inet x / 2 ^ (32 - a.prefixLen.toNat)) := by
    rw [addrVal4_and, hmask, keep (by omega) (addrVal4_lt _)]
    exact lowest_eq 32 _ _
  refine ⟨_, rfl, ?_⟩
  rw [Bool.and_eq_true, decide_eq_true_iff, beq_iff_eq, ge_iff_le, UInt32.le_iff_toNat_le,
    range_subset_iff h2 hb, ← ntohl_inj big, ← UInt32.toNat_inj,
    ← addrVal4, ← addrVal4, hnet, hnet, Nat.mul_left_cancel_iff (Nat.two_pow_pos _)]
  exact and_congr_right fun _ => eq_comm

/-- the address `2002:wwxx:yyzz::` of the IPv4 address with the bytes `l` -/
def val6to4 (l : List UInt8) : Nat := ofBytes ([0x20, 0x02] ++ l ++ zeros 10)

/-- the bytes that `cidr_6to4` takes from the word -/
theorem bytes6to4 (x : UInt32) : [(x >>> 24).toUInt8, ((x >>> 16) &&& 0xFF).toUInt8,
    ((x >>> 8) &&& 0xFF).toUInt8, (x &&& 0xFF).toUInt8] = put32 true x := by
  have h (n : Nat) : (x.toNat >>> n &&& 2 ^ 8 - 1) % 256 = x.toNat / 2 ^ n % 256 := by
    rw [Nat.and_two_pow_sub_one_eq_mod, Nat.shiftRight_eq_div_pow, Nat.mod_mod]
  show _ = [UInt8.ofNat (x.toNat / 16777216), UInt8.ofNat (x.toNat / 65536), UInt8.ofNat (x.toNat / 256),
    UInt8.ofNat x.toNat]
  refine congrArg₂ List.cons ?_ (congrArg₂ List.cons ?_ (congrArg₂ List.cons ?_
    (congrArg₂ List.cons ?_ rfl))) <;> apply UInt8.toNat_inj.mp
  · show x.toNat >>> 24 % 256 = _ % 256
    rw [Nat.shiftRight_eq_div_pow]
  · exact h 16
  · exact h 8
  · show (x.toNat &&& 255) % 256 = x.toNat % 256
    have h0 := h 0
    rwa [Nat.shiftRight_zero, Nat.pow_zero, Nat.div_one] at h0

theorem sixToFour_iff : Pushes big .inet6 (cidr6to4 a s) s 48 (· = val6to4 (addrBytes big .inet a.addr)) ↔
    big = true ∨ (addrBytes big .inet a.addr).reverse = addrBytes big .inet a.addr := by
  have hval (x : In6) (h : cidr6to4 a s = some (true, s.push (f := .inet6) ⟨48, x⟩)) :
      x.bytes = [0x20, 0x02] ++ put32 true a.addr ++ zeros 10 := by
    unfold cidr6to4 at h
    have h := push_inj (Prod.mk.inj (Option.some.inj h)).2
    rw [Cidr.mk.injEq] at h
    rw [← h.2, ← bytes6to4]
    rfl
  have heq : (∀ x : In6, cidr6to4 a s = some (true, s.push (f := .inet6) ⟨48, x⟩) →
      (addrVal big .inet6 x = val6to4 (put32 big a.addr) ↔ put32 true a.addr = put32 big a.addr)) := by
    intro x h
    show ofBytes x.bytes = ofBytes _ ↔ _
    rw [hval x h]
    constructor
    · intro h
      have h := Carry.ofBytes_inj _ _ (by simp) h
      exact List.append_cancel_left (List.append_cancel_right h)
    · intro h
      rw [h]
  have hrev : put32 true a.addr = put32 big a.addr ↔
      big = true ∨ (put32 big a.addr).reverse = put32 big a.addr := by
    cases big with
    | true => exact iff_of_true rfl (Or.inl rfl)
    | false => rw [or_iff_right Bool.false_ne_true]; exact Iff.rfl
  show _ ↔ big = true ∨ (put32 big a.addr).reverse = put32 big a.addr
  rw [← hrev]
  constructor
  · rintro ⟨x, hx, hv⟩
    exact (heq x hx).mp hv
  · intro h
    exact ⟨_, rfl, (heq _ rfl).mpr h⟩

end

/-! ## IPv6 -/

section
variable {big : Bool} {a b : Cidr .inet6} {s : State}

/-- what is in front of the last `k` bytes -/
theorem In6.val_front (x : In6) {k : Nat} (hk : k ≤ 16) :
    x.val / 256 ^ k = ofBytes (x.bytes.take (16 - k)) := by
  have hl : (x.bytes.drop (16 - k)).length = k := by
    rw [List.length_drop, x.length_bytes]
    omega
  have hs := Carry.ofBytes_append (x.bytes.take (16 - k)) (x.bytes.drop (16 - k))
  rw [List.take_append_drop, hl] at hs
  have hlt := ofBytes_lt (x.bytes.drop (16 - k))
  rw [hl, Nat.pow_mul] at hlt
  unfold In6.val
  rw [hs, Nat.add_comm, Nat.add_mul_div_right _ _ (Nat.pow_pos (by decide)), Nat.div_eq_of_lt hlt,
    Nat.zero_add]

theorem In6.take_succ (x : In6) {k : Nat} (hk : k < 16) :
    x.bytes.take (16 - k) = x.bytes.take (15 - k) ++ [x.get (15 - k)] := by
  have h : 15 - k < x.bytes.length := by
    rw [x.length_bytes]
    omega
  rw [show 16 - k = 15 - k + 1 by omega, List.take_succ_eq_append_getElem h]
  unfold In6.get
  rw [List.getD_eq_getElem _ _ h]

theorem In6.clear_bytes (x : In6) : ∀ k ≤ 16, (x.clear k).bytes = x.bytes.take (16 - k) ++ zeros k
  | 0, _ => by
    show x.bytes = _
    rw [List.take_of_length_le (by rw [x.length_bytes])]
    exact (List.append_nil _).symm
  | k + 1, h => by
    show ((x.clear k).bytes.set (15 - k) 0) = _
    have hl : (x.bytes.take (15 - k)).length = 15 - k := by
      rw [List.length_take, x.length_bytes]
      omega
    rw [In6.clear_bytes x k (by omega), In6.take_succ x (by omega), List.append_assoc,
      List.singleton_append]
    have hset := Carry.set_mid (x.bytes.take (15 - k)) (x.get (15 - k)) 0 (zeros k)
    rw [hl] at hset
    rw [hset, show 16 - (k + 1) = 15 - k by omega]
    rfl

theorem zeros_val (k : Nat) : ofBytes (zeros k) = 0 := Carry.ofBytes_zeros k

/-- the leading bits, inside the byte `15 - k` -/
theorem In6.val_div (x : In6) {k r : Nat} (hk : k < 16) (hr : r ≤ 8) :
    x.val / 2 ^ (8 * k + r)
      = ofBytes (x.bytes.take (15 - k)) * 2 ^ (8 - r) + (x.get (15 - k)).toNat / 2 ^ r := by
  have hb : 256 * ofBytes (x.bytes.take (15 - k))
      = 2 ^ r * (ofBytes (x.bytes.take (15 - k)) * 2 ^ (8 - r)) := by
    rw [Nat.mul_left_comm, ← Nat.pow_add, Nat.add_sub_cancel' hr, Nat.mul_comm]
  rw [Nat.pow_add, Nat.pow_mul, ← Nat.div_div_eq_div_mul, show 2 ^ 8 = 256 from rfl,
    x.val_front (by omega), x.take_succ hk, ofBytes_snoc, hb, Nat.mul_add_div (Nat.two_pow_pos _)]

/-- the mask of the byte in the middle -/
theorem mask8_and {n : Nat} (hn : n < 8) (x : UInt8) :
    (x &&& ~~~((1 <<< UInt8.ofNat n) - 1)).toNat = 2 ^ n * (x.toNat / 2 ^ n) := by
  rw [UInt8.toNat_and, mask8_toNat n hn, keep (by omega) x.toNat_lt]
  have := Nat.div_add_mod x.toNat (2 ^ n)
  omega

theorem toNat_free (h : a.prefixLen.toNat ≤ 128) :
    ((128 - a.prefixLen) / 8).toNat = (128 - a.prefixLen.toNat) / 8 ∧
      ((128 - a.prefixLen) % 8).toUInt8 = UInt8.ofNat ((128 - a.prefixLen.toNat) % 8) ∧
      ((128 - a.prefixLen) % 8 = 0 ↔ (128 - a.prefixLen.toNat) % 8 = 0) := by
  have hle : a.prefixLen ≤ 128 := UInt32.le_iff_toNat_le.mpr h
  have hm : ((128 - a.prefixLen) % 8).toNat = (128 - a.prefixLen.toNat) % 8 := by
    rw [UInt32.toNat_mod, UInt32.toNat_sub_of_le _ _ hle]
    rfl
  refine ⟨?_, ?_, ?_⟩
  · rw [UInt32.toNat_div, UInt32.toNat_sub_of_le _ _ hle]
    rfl
  · rw [← hm]
    rfl
  · rw [← UInt32.toNat_inj, hm]
    rfl

theorem network6 (h : a.prefixLen.toNat ≤ 128) :
    Pushes big .inet6 (cidrNetwork6 a s) s a.prefixLen (IsLeast (range big a)) := by
  obtain ⟨hk, hm, h0⟩ := toNat_free h
  generalize hfree : 128 - a.prefixLen.toNat = n at hk hm h0
  have hleast (x : In6) (hx : x.val = 2 ^ n * (a.addr.val / 2 ^ n)) :
      IsLeast (range big a) (addrVal big .inet6 x) := by
    have h := isLeast_lowest 128 a.prefixLen.toNat (addrVal big .inet6 a.addr)
    rw [lowest_eq, hfree] at h
    show IsLeast _ x.val
    rw [hx]
    exact h
  unfold cidrNetwork6
  dsimp only
  rw [hk, if_neg (by omega), hm]
  by_cases hr : n % 8 = 0
  · rw [if_pos (h0.mpr hr)]
    refine ⟨_, rfl, hleast _ ?_⟩
    show ofBytes (a.addr.clear (n / 8)).bytes = _
    have hn : 2 ^ n = 256 ^ (n / 8) := by
      rw [show (256 : Nat) = 2 ^ 8 from rfl, ← Nat.pow_mul]
      congr 1
      omega
    rw [In6.clear_bytes _ _ (by omega), Carry.ofBytes_append, zeros_val, zeros_length, hn,
      In6.val_front _ (by omega), Nat.mul_comm]
    rfl
  · rw [if_neg (h0.not.mpr hr), if_neg (by omega)]
    have hl : (a.addr.bytes.take (15 - n / 8)).length = 15 - n / 8 := by
      rw [List.length_take, a.addr.length_bytes]
      omega
    have hbytes : (a.addr.clear (n / 8)).bytes
        = a.addr.bytes.take (15 - n / 8) ++ a.addr.get (15 - n / 8) :: zeros (n / 8) := by
      rw [In6.clear_bytes _ _ (by omega), In6.take_succ _ (by omega), List.append_assoc,
        List.singleton_append]
    have hget : (a.addr.clear (n / 8)).get (15 - n / 8) = a.addr.get (15 - n / 8) := by
      have h := Carry.getD_mid (a.addr.bytes.take (15 - n / 8)) (a.addr.get (15 - n / 8)) 0 (zeros (n / 8))
      rw [hl, ← hbytes] at h
      exact h
    refine ⟨_, rfl, hleast _ ?_⟩
    rw [hget]
    show ofBytes ((a.addr.clear (n / 8)).bytes.set (15 - n / 8) _) = _
    have hset := Carry.set_mid (a.addr.bytes.take (15 - n / 8)) (a.addr.get (15 - n / 8))
      (a.addr.get (15 - n / 8) &&& ~~~((1 <<< UInt8.ofNat (n % 8)) - 1)) (zeros (n / 8))
    rw [hl, ← hbytes] at hset
    rw [hset, Carry.ofBytes_mid, zeros_val, zeros_length, mask8_and (Nat.mod_lt _ (by decide))]
    conv_rhs => rw [show n = 8 * (n / 8) + n % 8 by omega, In6.val_div _ (by omega) (by omega)]
    have hp : 2 ^ (8 - n % 8) * 2 ^ (n % 8) = 256 := by
      rw [← Nat.pow_add, Nat.sub_add_cancel (by omega)]
    have hq : 2 ^ (8 * (n / 8) + n % 8) = 256 ^ (n / 8) * 2 ^ (n % 8) := by
      rw [Nat.pow_add, Nat.pow_mul]
    rw [hq, ← hp]
    ring

/-- the comparison of `cidr_contains6`: the bytes in front, and the bits of the byte in the middle -/
theorem heads_eq_iff {x y : In6} {n : Nat} (hn : n < 128) :
    ((x.get (15 - n / 8) &&& ~~~((1 <<< UInt8.ofNat (n % 8)) - 1)
        == y.get (15 - n / 8) &&& ~~~((1 <<< UInt8.ofNat (n % 8)) - 1)) = true ∧
      (n / 8 == 15 || x.bytes.take (15 - n / 8) == y.bytes.take (15 - n / 8)) = true) ↔
    x.val / 2 ^ n = y.val / 2 ^ n := by
  have hr : n % 8 < 8 := Nat.mod_lt _ (by decide)
  have hdiv (z : In6) : z.val / 2 ^ n = ofBytes (z.bytes.take (15 - n / 8)) * 2 ^ (8 - n % 8)
      + (z.get (15 - n / 8)).toNat / 2 ^ (n % 8) := by
    have h := z.val_div (k := n / 8) (r := n % 8) (by omega) (by omega)
    rwa [Nat.div_add_mod] at h
  have hlt (z : In6) : (z.get (15 - n / 8)).toNat / 2 ^ (n % 8) < 2 ^ (8 - n % 8) := by
    rw [Nat.div_lt_iff_lt_mul (Nat.two_pow_pos _), ← Nat.pow_add, Nat.sub_add_cancel (by omega)]
    exact UInt8.toNat_lt _
  -- the byte in the middle
  have hmid : (x.get (15 - n / 8) &&& ~~~((1 <<< UInt8.ofNat (n % 8)) - 1)
        == y.get (15 - n / 8) &&& ~~~((1 <<< UInt8.ofNat (n % 8)) - 1)) = true ↔
      (x.get (15 - n / 8)).toNat / 2 ^ (n % 8) = (y.get (15 - n / 8)).toNat / 2 ^ (n % 8) := by
    rw [beq_iff_eq, ← UInt8.toNat_inj, mask8_and hr, mask8_and hr,
      Nat.mul_left_cancel_iff (Nat.two_pow_pos _)]
  -- the bytes in front of it
  have hfront : (n / 8 == 15 || x.bytes.take (15 - n / 8) == y.bytes.take (15 - n / 8)) = true ↔
      ofBytes (x.bytes.take (15 - n / 8)) = ofBytes (y.bytes.take (15 - n / 8)) := by
    rw [Bool.or_eq_true, beq_iff_eq, beq_iff_eq]
    constructor
    · rintro (h | h)
      · rw [h]
        rfl
      · rw [h]
    · intro h
      exact Or.inr (Carry.ofBytes_inj _ _ (by rw [List.length_take, List.length_take, x.length_bytes,
        y.length_bytes]) h)
  rw [hmid, hfront, hdiv, hdiv]
  have hx := hlt x
  have hy := hlt y
  constructor
  · rintro ⟨h1, h2⟩
    rw [h1, h2]
  · intro h
    have hQ : 0 < 2 ^ (8 - n % 8) := Nat.two_pow_pos _
    have hd := congrArg (· / 2 ^ (8 - n % 8)) h
    have hm := congrArg (· % 2 ^ (8 - n % 8)) h
    rw [Nat.mul_comm, Nat.mul_add_div hQ, Nat.div_eq_of_lt hx, Nat.mul_comm (ofBytes (y.bytes.take _)),
      Nat.mul_add_div hQ, Nat.div_eq_of_lt hy] at hd
    rw [Nat.mul_comm, Nat.mul_add_mod, Nat.mod_eq_of_lt hx, Nat.mul_comm (ofBytes (y.bytes.take _)),
      Nat.mul_add_mod, Nat.mod_eq_of_lt hy] at hm
    exact ⟨hm, hd⟩

theorem contains6_iff (h : a.prefixLen.toNat ≤ 128) (hb : b.prefixLen.toNat ≤ 128) :
    Answers (cidrContains6 a b s) (s.push a) (range big b ⊆ range big a) ↔ 0 < a.prefixLen.toNat := by
  obtain ⟨hk, hm, -⟩ := toNat_free h
  have hk8 : ((128 - a.prefixLen) / 8).toUInt8.toNat = (128 - a.prefixLen.toNat) / 8 := by
    rw [UInt32.toNat_toUInt8, hk]
    omega
  unfold cidrContains6
  dsimp only
  rw [hk8, hm]
  by_cases h1 : 0 < a.prefixLen.toNat
  · refine iff_of_true ?_ h1
    rw [if_neg (by omega)]
    refine ⟨_, rfl, ?_⟩
    rw [range_subset_iff h hb]
    show _ ↔ _ ∧ b.addr.val / 2 ^ (128 - a.prefixLen.toNat) = a.addr.val / 2 ^ (128 - a.prefixLen.toNat)
    have hn : 128 - a.prefixLen.toNat < 128 := by omega
    generalize 128 - a.prefixLen.toNat = n at *
    rw [Bool.and_eq_true, Bool.and_eq_true, decide_eq_true_iff, ge_iff_le, UInt32.le_iff_toNat_le,
      and_assoc, heads_eq_iff hn]
    exact and_congr_right fun _ => eq_comm
  · refine iff_of_false (fun h => ?_) h1
    rw [if_pos (by omega)] at h
    exact not_answers h

end

/-- **The ranges**: an empty prefix is shifted out of the word (IPv4), or read in front of the
address (IPv6), and `6to4` takes the word of the host. -/
theorem cidr_ranges (big : Bool) (a b : Cidr .inet) (c d : Cidr .inet6) (s : State)
    (ha : a.prefixLen.toNat ≤ 32) (hb : b.prefixLen.toNat ≤ 32) (hc : c.prefixLen.toNat ≤ 128)
    (hd : d.prefixLen.toNat ≤ 128) :
    (Pushes big .inet (cidrNetwork4 big a s) s 32 (IsLeast (range big a)) ↔ 0 < a.prefixLen.toNat) ∧
    (Pushes big .inet (cidrBroadcast4 big a s) s 32 (IsGreatest (range big a)) ↔
      0 < a.prefixLen.toNat) ∧
    (Pushes big .inet (cidrNetmask4 big a s) s 32 (leading a.prefixLen.toNat) ↔
      0 < a.prefixLen.toNat) ∧
    (Answers (cidrContains4 big a b s) s (range big b ⊆ range big a) ↔ 0 < a.prefixLen.toNat) ∧
    (Pushes big .inet6 (cidr6to4 a s) s 48 (· = val6to4 (addrBytes big .inet a.addr)) ↔
      big = true ∨ (addrBytes big .inet a.addr).reverse = addrBytes big .inet a.addr) ∧
    Pushes big .inet6 (cidrNetwork6 c s) s c.prefixLen (IsLeast (range big c)) ∧
    (Answers (cidrContains6 c d s) (s.push c) (range big d ⊆ range big c) ↔ 0 < c.prefixLen.toNat) :=
  ⟨network4_iff ha, broadcast4_iff ha, netmask4_iff ha, contains4_iff ha hb, sixToFour_iff, network6 hc,
    contains6_iff hc hd⟩

/-- 0.0.0.0/0 and ::/0 -/
def any4 : Cidr .inet := ⟨0, 0⟩
def any6 : Cidr .inet6 := ⟨0, In6.zero⟩

theorem cidr_ranges_lan : Pushes false .inet (cidrNetwork4 false arg24 State.init) State.init 32
    (IsLeast (range false arg24)) ↔ 0 < arg24.prefixLen.toNat :=
  (cidr_ranges false arg24 lan any6 db8 State.init (by decide) (by decide) (by decide) (by decide)).1

/-- shifts by 32, a byte in front of the address, and 10.0.255.0 as 2002:00ff:000a:: -/
theorem cidr_ranges_wrong :
    ¬Pushes false .inet (cidrNetwork4 false any4 State.init) State.init 32 (IsLeast (range false any4)) ∧
    ¬Answers (cidrContains4 false any4 lan State.init) State.init (range false lan ⊆ range false any4) ∧
    ¬Answers (cidrContains6 any6 db8 State.init) (State.init.push any6) (range false db8 ⊆ range false any6) ∧
    cidr6to4 lan State.init = some (true, State.init.push (f := .inet6)
      ⟨48, ⟨[0x20, 0x02, 0, 255, 0, 10] ++ zeros 10, rfl⟩⟩) ∧
    ¬Pushes false .inet6 (cidr6to4 lan State.init) State.init 48
      (· = val6to4 (addrBytes false .inet lan.addr)) := by
  refine ⟨not_pushes, not_answers, not_answers, rfl, fun h => ?_⟩
  exact absurd (sixToFour_iff.mp h) (by decide)

end Owipcalc
