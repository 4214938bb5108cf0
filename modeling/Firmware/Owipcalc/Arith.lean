import Firmware.Owipcalc.Cidr

/-!
# owipcalc: sums and differences

The operations `add`, `sub`, `next` and `prev` change the address as a number.

* `In6.val`             the number of an IPv6 address;
* `cidr_add6_sub6`      sums and differences of IPv6 addresses;
* `nextIn`, `prevIn`    where the steps to the next and to the previous prefix are right;
* `cidr_next_prev`      they are right there, and only there.
-/

set_option linter.unusedVariables false

namespace Owipcalc
open Word Bits

def In6.val (x : In6) : Nat := ofBytes x.bytes

theorem In6.val_lt (x : In6) : x.val < 2 ^ 128 := by
  have h := ofBytes_lt x.bytes
  rwa [x.length_bytes] at h

theorem In6.val_inj {x y : In6} : x.val = y.val ↔ x = y := by
  constructor
  · intro h
    obtain ⟨l, hl⟩ := x
    obtain ⟨m, hm⟩ := y
    obtain rfl : l = m := Carry.ofBytes_inj l m (hl.trans hm.symm) h
    rfl
  · rintro rfl
    rfl

/-! ## the bytes -/

theorem addDigit_spec (y : Nat → UInt8) (idx : Nat) (x : UInt8) (c : Bool) :
    Carry.Digit 1 x (y idx) c (addDigit y idx x c) := by
  have hx := x.toNat_lt
  have hy := (y idx).toNat_lt
  have hc := Bool.toNat_le c
  unfold Carry.Digit addDigit
  dsimp only
  rw [UInt8.toNat_ofNat']
  by_cases h : x.toNat + (y idx).toNat + c.toNat ≥ 256
  · rw [decide_eq_true h]
    show _ + (1 : Int) * (256 * (1 : Nat)) = _
    omega
  · rw [decide_eq_false h]
    show _ + (1 : Int) * (256 * (0 : Nat)) = _
    omega

theorem subDigit_spec (y : Nat → UInt8) (idx : Nat) (x : UInt8) (c : Bool) :
    Carry.Digit (-1) x (y idx) c (subDigit y idx x c) := by
  have hx := x.toNat_lt
  have hy := (y idx).toNat_lt
  have hc := Bool.toNat_le c
  unfold Carry.Digit subDigit
  dsimp only
  rw [UInt8.toNat_sub, UInt8.toNat_ofNat']
  by_cases h : x.toNat < (y idx).toNat + c.toNat
  · rw [decide_eq_true h]
    show _ + (-1 : Int) * (256 * (1 : Nat)) = _
    omega
  · rw [decide_eq_false h]
    show _ + (-1 : Int) * (256 * (0 : Nat)) = _
    omega

/-! ## sums and differences -/

theorem add_val (x y : In6) : (x.loop (addDigit y.get) 15 false).1.val
    + 2 ^ 128 * (x.loop (addDigit y.get) 15 false).2.toNat = x.val + y.val := by
  have h := (Carry.loop_full (k := 15) (c := false) x.length_bytes y.length_bytes
    (fun idx b c _ => addDigit_spec y.get idx b c)).2
  have e : (256 : Int) ^ (15 + 1) = 2 ^ 128 := by norm_num
  rw [e, show false.toNat = 0 from rfl] at h
  unfold In6.val In6.loop
  dsimp only
  omega

theorem sub_val (x y : In6) : (x.loop (subDigit y.get) 15 false).1.val + y.val
    = x.val + 2 ^ 128 * (x.loop (subDigit y.get) 15 false).2.toNat := by
  have h := (Carry.loop_full (k := 15) (c := false) x.length_bytes y.length_bytes
    (fun idx b c _ => subDigit_spec y.get idx b c)).2
  have e : (256 : Int) ^ (15 + 1) = 2 ^ 128 := by norm_num
  rw [e, show false.toNat = 0 from rfl] at h
  unfold In6.val In6.loop
  dsimp only
  omega

/-- the carry out of a sum -/
theorem carry_cases {x n : Nat} {c : Bool} (hx : x < 2 ^ 128) (h : x + 2 ^ 128 * c.toNat = n) :
    (c = false ∧ n < 2 ^ 128 ∧ x = n) ∨ (c = true ∧ 2 ^ 128 ≤ n) := by
  cases c with
  | false =>
    rw [show false.toNat = 0 from rfl, Nat.mul_zero, Nat.add_zero] at h
    exact Or.inl ⟨rfl, h ▸ hx, h⟩
  | true =>
    rw [show true.toNat = 1 from rfl, Nat.mul_one] at h
    exact Or.inr ⟨rfl, by omega⟩

/-- the borrow out of a difference -/
theorem borrow_cases {x y n : Nat} {c : Bool} (hx : x < 2 ^ 128) (h : x + y = n + 2 ^ 128 * c.toNat) :
    (c = false ∧ y ≤ n ∧ x + y = n) ∨ (c = true ∧ n < y) := by
  cases c with
  | false =>
    rw [show false.toNat = 0 from rfl, Nat.mul_zero, Nat.add_zero] at h
    exact Or.inl ⟨rfl, by omega, h⟩
  | true =>
    rw [show true.toNat = 1 from rfl, Nat.mul_one] at h
    exact Or.inr ⟨rfl, by omega⟩

/-- the outcome of `cidr_add6` -/
theorem cidrAdd6_eq (a b : Cidr .inet6) (s : State) : ∃ x : In6,
    cidrAdd6 a b s = some (decide (a.addr.val + b.addr.val < 2 ^ 128), s.push (f := .inet6) ⟨a.prefixLen, x⟩) ∧
    (a.addr.val + b.addr.val < 2 ^ 128 → x.val = a.addr.val + b.addr.val) := by
  have h := add_val a.addr b.addr
  have hx := (a.addr.loop (addDigit b.addr.get) 15 false).1.val_lt
  unfold cidrAdd6
  dsimp only
  generalize a.addr.loop (addDigit b.addr.get) 15 false = r at h hx
  obtain ⟨x, c⟩ := r
  refine ⟨x, ?_⟩
  rcases carry_cases hx h with ⟨rfl, hlt, hv⟩ | ⟨rfl, hge⟩
  · rw [decide_eq_true hlt]
    exact ⟨rfl, fun _ => hv⟩
  · rw [decide_eq_false (Nat.not_lt.mpr hge)]
    exact ⟨rfl, fun hlt => absurd hlt (Nat.not_lt.mpr hge)⟩

/-- the outcome of `cidr_sub6` -/
theorem cidrSub6_eq (a b : Cidr .inet6) (s : State) : ∃ x : In6,
    cidrSub6 a b s = some (decide (b.addr.val ≤ a.addr.val), s.push (f := .inet6) ⟨a.prefixLen, x⟩) ∧
    (b.addr.val ≤ a.addr.val → x.val = a.addr.val - b.addr.val) := by
  have h := sub_val a.addr b.addr
  have hx := (a.addr.loop (subDigit b.addr.get) 15 false).1.val_lt
  unfold cidrSub6
  dsimp only
  generalize a.addr.loop (subDigit b.addr.get) 15 false = r at h hx
  obtain ⟨x, c⟩ := r
  refine ⟨x, ?_⟩
  rcases borrow_cases hx h with ⟨rfl, hle, hv⟩ | ⟨rfl, hlt⟩
  · rw [decide_eq_true hle]
    exact ⟨rfl, fun _ => (Nat.sub_eq_of_eq_add hv.symm).symm⟩
  · rw [decide_eq_false (Nat.not_le.mpr hlt)]
    exact ⟨rfl, fun hle => absurd hle (Nat.not_le.mpr hlt)⟩

/-- **Sums and differences of IPv6 addresses** are exact, and undo each other. -/
theorem cidr_add6_sub6 (a b : Cidr .inet6) (s : State) :
    (∃ x : In6, cidrAdd6 a b s
        = some (decide (a.addr.val + b.addr.val < 2 ^ 128), s.push (f := .inet6) ⟨a.prefixLen, x⟩) ∧
      (a.addr.val + b.addr.val < 2 ^ 128 → x.val = a.addr.val + b.addr.val ∧
        ∀ t, cidrSub6 ⟨a.prefixLen, x⟩ b t = some (true, t.push a))) ∧
    (∃ x : In6, cidrSub6 a b s
        = some (decide (b.addr.val ≤ a.addr.val), s.push (f := .inet6) ⟨a.prefixLen, x⟩) ∧
      (b.addr.val ≤ a.addr.val → x.val = a.addr.val - b.addr.val ∧
        ∀ t, cidrAdd6 ⟨a.prefixLen, x⟩ b t = some (true, t.push a))) := by
  have ha := a.addr.val_lt
  constructor
  · obtain ⟨x, h, hval⟩ := cidrAdd6_eq a b s
    refine ⟨x, h, fun hlt => ⟨hval hlt, fun t => ?_⟩⟩
    have hx := hval hlt
    obtain ⟨y, h', hy⟩ := cidrSub6_eq ⟨a.prefixLen, x⟩ b t
    dsimp only at h' hy
    obtain rfl : y = a.addr := In6.val_inj.mp (by rw [hy (by omega)]; omega)
    rw [h', decide_eq_true (by omega)]
  · obtain ⟨x, h, hval⟩ := cidrSub6_eq a b s
    refine ⟨x, h, fun hle => ⟨hval hle, fun t => ?_⟩⟩
    have hx := hval hle
    obtain ⟨y, h', hy⟩ := cidrAdd6_eq ⟨a.prefixLen, x⟩ b t
    dsimp only at h' hy
    obtain rfl : y = a.addr := In6.val_inj.mp (by rw [hy (by omega)]; omega)
    rw [h', decide_eq_true (by omega)]

/-! ## steps by a prefix -/

def Family.width : Family → Nat
  | .inet => 32
  | .inet6 => 128

/-- the bytes of an address in memory -/
def addrBytes (big : Bool) : (f : Family) → f.Addr → List UInt8
  | .inet, s => put32 big s
  | .inet6, x => x.bytes

def addrVal (big : Bool) (f : Family) (x : f.Addr) : Nat := ofBytes (addrBytes big f x)

def cidrNext (big : Bool) : (f : Family) → Cidr f → Cidr f → State → Result
  | .inet => cidrNext4 big
  | .inet6 => cidrNext6

def cidrPrev (big : Bool) : (f : Family) → Cidr f → Cidr f → State → Result
  | .inet => cidrPrev4 big
  | .inet6 => cidrPrev6

/-- the operation leads to the address number `n` if there is one, and fails if there is none -/
def Reaches (big : Bool) (f : Family) (r : Result) (s : State) (p : UInt32) (n : Int) : Prop :=
  if 0 ≤ n ∧ n < 2 ^ f.width then
    ∃ x : f.Addr, r = some (true, s.push ⟨p, x⟩) ∧ (addrVal big f x : Int) = n
  else ∃ s', r = some (false, s')

theorem addrVal_lt (big : Bool) (f : Family) (x : f.Addr) : addrVal big f x < 2 ^ f.width := by
  cases f with
  | inet =>
    have h := ofBytes_lt (put32 big x)
    rwa [put32_length] at h
  | inet6 => exact In6.val_lt x

theorem push_inj {f : Family} {s : State} {a b : Cidr f} (h : s.push a = s.push b) : a = b := by
  have h := congrArg State.stack h
  rw [State.push_stack, State.push_stack] at h
  exact eq_of_heq (Sigma.mk.inj (List.cons.inj h).1).2

theorem reaches_true {big : Bool} {f : Family} {s : State} {p : UInt32} {x : f.Addr} {n : Int} :
    Reaches big f (some (true, s.push ⟨p, x⟩)) s p n ↔ (addrVal big f x : Int) = n := by
  have hx := addrVal_lt big f x
  unfold Reaches
  split
  · constructor
    · rintro ⟨y, hy, hv⟩
      have h := push_inj (Prod.mk.inj (Option.some.inj hy)).2
      rw [Cidr.mk.injEq] at h
      rwa [h.2]
    · intro h
      exact ⟨x, rfl, h⟩
  · next hn =>
    constructor
    · rintro ⟨s', hs⟩
      exact absurd hs (by simp)
    · rintro rfl
      exact absurd ⟨Int.natCast_nonneg _, by exact_mod_cast hx⟩ hn

theorem reaches_false {big : Bool} {f : Family} {s s' : State} {p : UInt32} {n : Int} :
    Reaches big f (some (false, s')) s p n ↔ ¬(0 ≤ n ∧ n < 2 ^ f.width) := by
  unfold Reaches
  split
  · next h =>
    constructor
    · rintro ⟨y, hy, -⟩
      exact absurd hy (by simp)
    · intro hn
      exact absurd h hn
  · next h => exact ⟨fun _ => h, fun _ => ⟨s', rfl⟩⟩

/-- what the steps in an IPv6 address add: they start at a byte -/
def byteStep (p : Nat) : Nat := 2 ^ (128 - 8 * ((p + 7) / 8))

/-- where `next` is right; `l` are the bytes of the address and `p` the length of the prefix -/
def nextIn : Family → List UInt8 → Nat → Prop
  | .inet, l, p => (l.getD ((p - 1) / 8) 0).toNat + 2 ^ ((32 - p) % 8) < 256
  | .inet6, l, p => p % 8 = 0 ∨ 2 ^ 128 ≤ ofBytes l + byteStep p

/-- where `prev` is right -/
def prevIn : Family → List UInt8 → Nat → Prop
  | .inet, l, p => 2 ^ ((32 - p) % 8) ≤ (l.getD ((p - 1) / 8) 0).toNat
  | .inet6, l, p => p % 8 = 0 ∨ ofBytes l < byteStep p

section
variable {a b : Cidr .inet} {s : State}

theorem htonl_shl : ∀ n < 32, (htonl false ((1 : UInt32) <<< UInt32.ofNat n)).toNat
    = 2 ^ (n % 8) * 256 ^ (3 - n / 8) := by decide

/-- the number that is added in network order -/
theorem htonl_prefix {p : UInt32} (h1 : 1 ≤ p.toNat) (h2 : p.toNat ≤ 32) :
    shl (32 - p) = some (1 <<< (32 - p)) ∧ (htonl false ((1 : UInt32) <<< (32 - p))).toNat
      = 2 ^ ((32 - p.toNat) % 8) * 256 ^ ((p.toNat - 1) / 8) := by
  have h : 32 - p = UInt32.ofNat (32 - p.toNat) := by
    apply UInt32.toNat_inj.mp
    rw [UInt32.toNat_sub, UInt32.toNat_ofNat', show (32 : UInt32).toNat = 32 from rfl]
    omega
  constructor
  · unfold shl
    refine if_pos ?_
    rw [h, UInt32.lt_iff_toNat_lt, UInt32.toNat_ofNat', show (32 : UInt32).toNat = 32 from rfl]
    omega
  · rw [h, htonl_shl _ (by omega), show 3 - (32 - p.toNat) / 8 = (p.toNat - 1) / 8 by omega]

theorem pow_prefix {p : Nat} (h1 : 1 ≤ p) (h2 : p ≤ 32) :
    2 ^ (32 - p) = 2 ^ ((32 - p) % 8) * 256 ^ (3 - (p - 1) / 8) := by
  rw [show (256 : Nat) = 2 ^ 8 from rfl, ← Nat.pow_mul, ← Nat.pow_add]
  congr 1
  omega

theorem toNat_reverse (s : UInt32) : s.toNat = ofBytes (le32 s).reverse := by
  have h := ntohl_toNat true s
  rwa [ntohl_big] at h

theorem bit_lt (n : Nat) : 2 ^ (n % 8) < 256 :=
  (Nat.pow_lt_pow_right (by decide) (Nat.mod_lt _ (by decide)) : _ < 2 ^ 8)

/-- a sum in network order -/
theorem swapped_add {s t d : UInt32} {j e : Nat} (hj : j < 4) (he0 : 0 < e) (he : e < 256)
    (hd : d.toNat = e * 256 ^ j) (ht : t = s + d) :
    ofBytes (le32 t) = ofBytes (le32 s) + e * 256 ^ (3 - j) ↔ ((le32 s).getD j 0).toNat + e < 256 := by
  have split (w : UInt32) : le32 w = (le32 w).take j ++ (le32 w).getD j 0 :: (le32 w).drop (j + 1) := by
    have hl : j < (le32 w).length := hj
    rw [List.getD_eq_getElem _ _ hl, List.getElem_cons_drop, List.take_append_drop]
  have hlt (w : UInt32) : ((le32 w).take j).length = j := by
    have hl : (le32 w).length = 4 := rfl
    rw [List.length_take]
    omega
  have hld (w : UInt32) : ((le32 w).drop (j + 1)).length = 3 - j := by
    have hl : (le32 w).length = 4 := rfl
    rw [List.length_drop]
    omega
  have hk : t.toNat + 4294967296 * ((s.toNat + d.toNat) / 4294967296) = s.toNat + d.toNat := by
    rw [ht, UInt32.toNat_add]
    omega
  rw [hd, toNat_reverse s, toNat_reverse t, split s, split t] at hk
  have h := Carry.add_reversed (u := (le32 s).take j) (v := (le32 s).drop (j + 1))
    (p := (le32 t).take j) (q := (le32 t).drop (j + 1)) (by rw [hlt, hlt]) (by rw [hld, hld]) he0 he
    (by
      rw [hlt, hld, show j + (3 - j) + 1 = 4 by omega]
      exact hk)
  rwa [← split, ← split, hld] at h

theorem le32_getD {j : Nat} (hj : j < 4) (s : UInt32) :
    ((le32 s).getD j 0).toNat = s.toNat / 256 ^ j % 256 := by
  have h : (le32 s).getD j 0 = UInt8.ofNat (s.toNat / 256 ^ j) := by
    match j, hj with
    | 0, _ => exact congrArg UInt8.ofNat (Nat.div_one _).symm
    | 1, _ => rfl
    | 2, _ => rfl
    | 3, _ => rfl
  rw [h, UInt8.toNat_ofNat']

/-- a difference in network order -/
theorem swapped_sub {s t d : UInt32} {j e : Nat} (hj : j < 4) (he0 : 0 < e) (he : e < 256)
    (hd : d.toNat = e * 256 ^ j) (ht : t = s - d) :
    ofBytes (le32 t) + e * 256 ^ (3 - j) = ofBytes (le32 s) ↔ e ≤ ((le32 s).getD j 0).toNat := by
  have hs : s = t + d := by rw [ht, UInt32.sub_add_cancel]
  have hbyte : ((le32 s).getD j 0).toNat = (((le32 t).getD j 0).toNat + e) % 256 := by
    have hpow : (2 ^ 32 : Nat) = 256 ^ j * (256 * 256 ^ (3 - j)) := by
      rw [← Nat.pow_succ', ← Nat.pow_add, show j + (3 - j + 1) = 4 by omega]
      norm_num
    rw [le32_getD hj, le32_getD hj, hs, UInt32.toNat_add, hd, hpow, Nat.mod_mul_right_div_self,
      Nat.mod_mul_right_mod, Nat.add_mul_div_right _ _ (Nat.pow_pos (by decide)), Nat.mod_add_mod]
  have hsum := swapped_add hj he0 he hd hs
  have hb := ((le32 t).getD j 0).toNat_lt
  constructor
  · intro h
    have := hsum.mp h.symm
    omega
  · intro h
    exact (hsum.mpr (by omega)).symm

theorem next4_iff (h1 : 1 ≤ b.prefixLen.toNat) (h2 : b.prefixLen.toNat ≤ 32) :
    Reaches false .inet (cidrNext4 false a b s) s b.prefixLen
        (addrVal false .inet a.addr + 2 ^ (32 - b.prefixLen.toNat)) ↔
      nextIn .inet (addrBytes false .inet a.addr) b.prefixLen.toNat := by
  obtain ⟨hm, hd⟩ := htonl_prefix h1 h2
  have hpow := pow_prefix h1 h2
  have hr : cidrNext4 false a b s = some (true, s.push (f := .inet)
      ⟨b.prefixLen, a.addr + htonl false (1 <<< (32 - b.prefixLen))⟩) := by
    unfold cidrNext4
    rw [hm]
    rfl
  have hsum := swapped_add (s := a.addr) (by omega) (Nat.two_pow_pos _) (bit_lt _) hd rfl
  rw [hr, reaches_true]
  show _ ↔ ((le32 a.addr).getD ((b.prefixLen.toNat - 1) / 8) 0).toNat
    + 2 ^ ((32 - b.prefixLen.toNat) % 8) < 256
  rw [← hsum, ← hpow]
  exact ⟨fun h => by exact_mod_cast h, fun h => by exact_mod_cast h⟩

theorem prev4_iff (h1 : 1 ≤ b.prefixLen.toNat) (h2 : b.prefixLen.toNat ≤ 32) :
    Reaches false .inet (cidrPrev4 false a b s) s b.prefixLen
        (addrVal false .inet a.addr - 2 ^ (32 - b.prefixLen.toNat)) ↔
      prevIn .inet (addrBytes false .inet a.addr) b.prefixLen.toNat := by
  obtain ⟨hm, hd⟩ := htonl_prefix h1 h2
  have hpow := pow_prefix h1 h2
  have hr : cidrPrev4 false a b s = some (true, s.push (f := .inet)
      ⟨b.prefixLen, a.addr - htonl false (1 <<< (32 - b.prefixLen))⟩) := by
    unfold cidrPrev4
    rw [hm]
    rfl
  have hsum := swapped_sub (s := a.addr) (by omega) (Nat.two_pow_pos _) (bit_lt _) hd rfl
  rw [hr, reaches_true]
  show _ ↔ 2 ^ ((32 - b.prefixLen.toNat) % 8)
    ≤ ((le32 a.addr).getD ((b.prefixLen.toNat - 1) / 8) 0).toNat
  rw [← hsum, ← hpow]
  show ((ofBytes (le32 (a.addr - htonl false (1 <<< (32 - b.prefixLen)))) : Nat) : Int)
    = ((ofBytes (le32 a.addr) : Nat) : Int) - 2 ^ (32 - b.prefixLen.toNat) ↔ _
  rw [eq_sub_iff_add_eq]
  exact ⟨fun h => by exact_mod_cast h, fun h => by exact_mod_cast h⟩

end

section
variable {a b : Cidr .inet6} {s : State}

theorem stepIdx_eq (h1 : 1 ≤ b.prefixLen.toNat) (h2 : b.prefixLen.toNat ≤ 128) :
    b.prefixLen ≠ 0 ∧ stepIdx b = (b.prefixLen.toNat - 1) / 8 := by
  refine ⟨fun h => absurd h1 (by rw [h]; decide), ?_⟩
  unfold stepIdx
  have h : 1 ≤ b.prefixLen := UInt32.le_iff_toNat_le.mpr h1
  rw [UInt32.toNat_toUInt8, UInt32.toNat_div, UInt32.toNat_sub_of_le _ _ h]
  show (b.prefixLen.toNat - 1) / 8 % 256 = _
  omega

theorem byteStep_eq {p : Nat} (h1 : 1 ≤ p) (h2 : p ≤ 128) : 256 ^ (15 - (p - 1) / 8) = byteStep p := by
  unfold byteStep
  rw [show (256 : Nat) = 2 ^ 8 from rfl, ← Nat.pow_mul]
  congr 1
  omega

theorem byteStep_le {p : Nat} (h : p ≤ 128) :
    byteStep p ≤ 2 ^ (128 - p) ∧ (byteStep p = 2 ^ (128 - p) ↔ p % 8 = 0) := by
  unfold byteStep
  refine ⟨Nat.pow_le_pow_right (by decide) (by omega), ?_⟩
  rw [Nat.pow_right_inj (by decide)]
  omega

theorem next_val (x : In6) {k : Nat} (hk : k < 16) :
    (x.loop (addDigit fun _ => 0) k true).1.val + 2 ^ 128 * (x.loop (addDigit fun _ => 0) k true).2.toNat
      = x.val + 256 ^ (15 - k) := by
  have h := Carry.loop_one (x := x.bytes) (by rw [x.length_bytes]; exact hk)
    (fun idx b c _ => addDigit_spec (fun _ => 0) idx b c)
  have e : (256 : Int) ^ 16 = 2 ^ 128 := by norm_num
  rw [x.length_bytes, e, one_mul, one_mul] at h
  exact_mod_cast h

theorem prev_val (x : In6) {k : Nat} (hk : k < 16) :
    (x.loop (subDigit fun _ => 0) k true).1.val + 256 ^ (15 - k)
      = x.val + 2 ^ 128 * (x.loop (subDigit fun _ => 0) k true).2.toNat := by
  have h := Carry.loop_one (x := x.bytes) (by rw [x.length_bytes]; exact hk)
    (fun idx b c _ => subDigit_spec (fun _ => 0) idx b c)
  have e : (256 : Int) ^ 16 = 2 ^ 128 := by norm_num
  rw [x.length_bytes, e] at h
  have h' : ((x.loop (subDigit fun _ => 0) k true).1.val : Int) + 256 ^ (15 - k)
      = x.val + 2 ^ 128 * (x.loop (subDigit fun _ => 0) k true).2.toNat := by
    unfold In6.val In6.loop
    linarith only [h]
  exact_mod_cast h'

/-- the outcome of `cidr_next6` -/
theorem cidrNext6_eq (h1 : 1 ≤ b.prefixLen.toNat) (h2 : b.prefixLen.toNat ≤ 128) : ∃ x : In6,
    (a.addr.val + byteStep b.prefixLen.toNat < 2 ^ 128 ∧
      cidrNext6 a b s = some (true, s.push (f := .inet6) ⟨b.prefixLen, x⟩) ∧
      x.val = a.addr.val + byteStep b.prefixLen.toNat) ∨
    (2 ^ 128 ≤ a.addr.val + byteStep b.prefixLen.toNat ∧
      cidrNext6 a b s = some (false, s.push (f := .inet6) ⟨a.prefixLen, x⟩)) := by
  obtain ⟨h0, hi⟩ := stepIdx_eq h1 h2
  have hk : stepIdx b < 16 := by omega
  have h := next_val a.addr hk
  rw [hi, byteStep_eq h1 h2, ← hi] at h
  have hx := (a.addr.loop (addDigit fun _ => 0) (stepIdx b) true).1.val_lt
  unfold cidrNext6 cidrStep6
  rw [if_neg h0, if_pos hk]
  generalize a.addr.loop (addDigit fun _ => 0) (stepIdx b) true = r at h hx
  obtain ⟨x, c⟩ := r
  rcases carry_cases hx h with ⟨rfl, hlt, hv⟩ | ⟨rfl, hge⟩
  · exact ⟨x, Or.inl ⟨hlt, rfl, hv⟩⟩
  · exact ⟨x, Or.inr ⟨hge, rfl⟩⟩

/-- the outcome of `cidr_prev6` -/
theorem cidrPrev6_eq (h1 : 1 ≤ b.prefixLen.toNat) (h2 : b.prefixLen.toNat ≤ 128) : ∃ x : In6,
    (byteStep b.prefixLen.toNat ≤ a.addr.val ∧
      cidrPrev6 a b s = some (true, s.push (f := .inet6) ⟨b.prefixLen, x⟩) ∧
      x.val + byteStep b.prefixLen.toNat = a.addr.val) ∨
    (a.addr.val < byteStep b.prefixLen.toNat ∧
      cidrPrev6 a b s = some (false, s.push (f := .inet6) ⟨a.prefixLen, x⟩)) := by
  obtain ⟨h0, hi⟩ := stepIdx_eq h1 h2
  have hk : stepIdx b < 16 := by omega
  have h := prev_val a.addr hk
  rw [hi, byteStep_eq h1 h2, ← hi] at h
  have hx := (a.addr.loop (subDigit fun _ => 0) (stepIdx b) true).1.val_lt
  unfold cidrPrev6 cidrStep6
  rw [if_neg h0, if_pos hk]
  generalize a.addr.loop (subDigit fun _ => 0) (stepIdx b) true = r at h hx
  obtain ⟨x, c⟩ := r
  rcases borrow_cases hx h with ⟨rfl, hle, hv⟩ | ⟨rfl, hlt⟩
  · exact ⟨x, Or.inl ⟨hle, rfl, hv⟩⟩
  · exact ⟨x, Or.inr ⟨hlt, rfl⟩⟩

theorem next6_iff (h1 : 1 ≤ b.prefixLen.toNat) (h2 : b.prefixLen.toNat ≤ 128) (big : Bool) :
    Reaches big .inet6 (cidrNext6 a b s) s b.prefixLen
        (addrVal big .inet6 a.addr + 2 ^ (128 - b.prefixLen.toNat)) ↔
      nextIn .inet6 (addrBytes big .inet6 a.addr) b.prefixLen.toNat := by
  obtain ⟨hle, heq⟩ := byteStep_le h2
  have hlt : (a.addr.val : Int) < 2 ^ 128 := by exact_mod_cast a.addr.val_lt
  obtain ⟨x, ⟨hc, hr, hx⟩ | ⟨hc, hr⟩⟩ := cidrNext6_eq (a := a) (s := s) h1 h2
  · rw [hr, reaches_true]
    show ((x.val : Nat) : Int) = (a.addr.val : Nat) + 2 ^ (128 - b.prefixLen.toNat) ↔
      b.prefixLen.toNat % 8 = 0 ∨ 2 ^ 128 ≤ a.addr.val + byteStep b.prefixLen.toNat
    rw [← heq, or_iff_left (by omega)]
    generalize byteStep b.prefixLen.toNat = d at *
    constructor
    · intro h
      have h : x.val = a.addr.val + 2 ^ (128 - b.prefixLen.toNat) := by exact_mod_cast h
      omega
    · rintro rfl
      exact_mod_cast hx
  · rw [hr, reaches_false]
    refine iff_of_true (fun h => ?_) (Or.inr hc)
    have h : a.addr.val + 2 ^ (128 - b.prefixLen.toNat) < 2 ^ 128 := by exact_mod_cast h.2
    omega

theorem prev6_iff (h1 : 1 ≤ b.prefixLen.toNat) (h2 : b.prefixLen.toNat ≤ 128) (big : Bool) :
    Reaches big .inet6 (cidrPrev6 a b s) s b.prefixLen
        (addrVal big .inet6 a.addr - 2 ^ (128 - b.prefixLen.toNat)) ↔
      prevIn .inet6 (addrBytes big .inet6 a.addr) b.prefixLen.toNat := by
  obtain ⟨hle, heq⟩ := byteStep_le h2
  obtain ⟨x, ⟨hc, hr, hx⟩ | ⟨hc, hr⟩⟩ := cidrPrev6_eq (a := a) (s := s) h1 h2
  · rw [hr, reaches_true]
    show ((x.val : Nat) : Int) = (a.addr.val : Nat) - 2 ^ (128 - b.prefixLen.toNat) ↔
      b.prefixLen.toNat % 8 = 0 ∨ a.addr.val < byteStep b.prefixLen.toNat
    rw [← heq, or_iff_left (by omega), eq_sub_iff_add_eq]
    constructor
    · intro h
      have h : x.val + 2 ^ (128 - b.prefixLen.toNat) = a.addr.val := by exact_mod_cast h
      omega
    · intro h
      rw [h] at hx
      exact_mod_cast hx
  · rw [hr, reaches_false]
    refine iff_of_true (fun h => ?_) (Or.inr hc)
    have h : 2 ^ (128 - b.prefixLen.toNat) ≤ a.addr.val := by exact_mod_cast sub_nonneg.mp h.1
    omega

end

/-- `prev` undoes `next` -/
theorem prev_next {f : Family} {a b c : Cidr f} {s : State} (h1 : 1 ≤ b.prefixLen.toNat)
    (h2 : b.prefixLen.toNat ≤ f.width) (h : cidrNext false f a b s = some (true, s.push c)) (t : State) :
    cidrPrev false f c b t = some (true, t.push ⟨b.prefixLen, a.addr⟩) := by
  cases f with
  | inet =>
    obtain ⟨hm, -⟩ := htonl_prefix h1 h2
    have h : cidrNext4 false a b s = some (true, s.push c) := h
    unfold cidrNext4 at h
    rw [hm] at h
    have hc := push_inj (Prod.mk.inj (Option.some.inj h)).2
    show cidrPrev4 false c b t = _
    unfold cidrPrev4
    rw [hm, ← hc]
    show some (true, t.push (f := .inet) ⟨b.prefixLen, a.addr + _ - _⟩) = _
    rw [UInt32.add_sub_cancel]
  | inet6 =>
    have h : cidrNext6 a b s = some (true, s.push c) := h
    obtain ⟨x, ⟨-, hr, hx⟩ | ⟨-, hr⟩⟩ := cidrNext6_eq (a := a) (s := s) h1 h2
    · rw [hr] at h
      obtain rfl := push_inj (Prod.mk.inj (Option.some.inj h)).2
      obtain ⟨y, ⟨-, hr', hy⟩ | ⟨hlt, -⟩⟩ :=
        cidrPrev6_eq (a := (⟨b.prefixLen, x⟩ : Cidr .inet6)) (s := t) h1 h2
      · dsimp only at hy
        obtain rfl : y = a.addr := In6.val_inj.mp (by omega)
        exact hr'
      · dsimp only at hlt
        omega
    · rw [hr] at h
      exact absurd h (by simp)

/-- **Steps by a prefix**: `next` and `prev` are right where no carry leaves the byte that is
changed (IPv4), or for whole bytes (IPv6), and only there. -/
theorem cidr_next_prev {f : Family} (a b : Cidr f) (s : State) (h1 : 1 ≤ b.prefixLen.toNat)
    (h2 : b.prefixLen.toNat ≤ f.width) :
    (Reaches false f (cidrNext false f a b s) s b.prefixLen
        (addrVal false f a.addr + 2 ^ (f.width - b.prefixLen.toNat)) ↔
      nextIn f (addrBytes false f a.addr) b.prefixLen.toNat) ∧
    (Reaches false f (cidrPrev false f a b s) s b.prefixLen
        (addrVal false f a.addr - 2 ^ (f.width - b.prefixLen.toNat)) ↔
      prevIn f (addrBytes false f a.addr) b.prefixLen.toNat) ∧
    ∀ c, cidrNext false f a b s = some (true, s.push c) →
      ∀ t, cidrPrev false f c b t = some (true, t.push ⟨b.prefixLen, a.addr⟩) := by
  refine ⟨?_, ?_, fun c h t => prev_next h1 h2 h t⟩
  · cases f with
    | inet => exact next4_iff h1 h2
    | inet6 => exact next6_iff h1 h2 false
  · cases f with
    | inet => exact prev4_iff h1 h2
    | inet6 => exact prev6_iff h1 h2 false

/-- 10.0.255.0 -/
def lan : Cidr .inet := ⟨32, htonl false 0x0A00FF00⟩

/-- the arguments `24` and `60` -/
def arg24 : Cidr .inet := ⟨24, htonl false 24⟩
def arg60 : Cidr .inet6 := ⟨60, ⟨zeros 15 ++ [60], rfl⟩⟩

/-- 2001:db8::/32 -/
def db8 : Cidr .inet6 := ⟨32, ⟨[0x20, 0x01, 0x0d, 0xb8] ++ zeros 12, rfl⟩⟩

theorem cidr_next_prev_lan : (Reaches false .inet (cidrNext false .inet lan arg24 State.init) State.init 24
    (addrVal false .inet lan.addr + 2 ^ (Family.inet.width - arg24.prefixLen.toNat)) ↔
      nextIn .inet (addrBytes false .inet lan.addr) arg24.prefixLen.toNat) :=
  (cidr_next_prev lan arg24 State.init (by decide) (by decide)).1

/-- the next /24 of 10.0.255.0 would be 10.0.0.1, and the next /60 of 2001:db8:: 2001:db8:0:1:: -/
theorem cidr_next_wrong :
    cidrNext false .inet lan arg24 State.init
      = some (true, State.init.push (f := .inet) ⟨24, htonl false 0x0A000001⟩) ∧
    ¬Reaches false .inet (cidrNext false .inet lan arg24 State.init) State.init arg24.prefixLen
        (addrVal false .inet lan.addr + 2 ^ (32 - arg24.prefixLen.toNat)) ∧
    ¬Reaches false .inet6 (cidrNext false .inet6 db8 arg60 State.init) State.init arg60.prefixLen
        (addrVal false .inet6 db8.addr + 2 ^ (128 - arg60.prefixLen.toNat)) := by
  refine ⟨rfl, fun h => ?_, fun h => ?_⟩
  · have hin := (next4_iff (a := lan) (b := arg24) (by decide) (by decide)).mp h
    exact absurd hin (by unfold nextIn; decide)
  · have hin := (next6_iff (a := db8) (b := arg60) (by decide) (by decide) false).mp h
    exact absurd hin (by unfold nextIn; decide)

end Owipcalc
