import Firmware.Lib.Bytes

/-!
# ptgen

A partition table: where each partition starts and ends, and the same in cylinders, heads and
sectors.

* `toChs`, `roundToCyl`, `roundToKb`   as in the source, with the conversions between `int`, `long`
                                       and `unsigned long`; signed arithmetic wraps;
* `genPtable`                          the loop over the partitions; `none` is a size of zero;
* `starts`                             the same in natural numbers;
* `genPtable_spec`                     what the table says, as long as the numbers fit.
-/

set_option linter.unusedVariables false

namespace Ptgen
open Img

/-- the width of `long`, and the options -/
structure Options where
  long64 : Bool
  active : Int
  heads : Int
  sectors : Int
  kbAlign : Int

/-- `struct partinfo` -/
structure Partinfo where
  size : Nat
  type : Int

/-- `struct pte` -/
structure Pte where
  active : UInt8
  chsStart : UInt8 × UInt8 × UInt8
  type : UInt8
  chsEnd : UInt8 × UInt8 × UInt8
  start : UInt32
  length : UInt32

def Options.bits (o : Options) : Nat := if o.long64 then 64 else 32

/-- an `unsigned long` -/
def Options.ulong (o : Options) (x : Int) : Int := x % 2 ^ o.bits

/-- a `long` -/
def Options.long (o : Options) (x : Int) : Int :=
  (x + 2 ^ (o.bits - 1)) % 2 ^ o.bits - 2 ^ (o.bits - 1)

def toChs (o : Options) (sect : Int) : UInt8 × UInt8 × UInt8 :=
  let s := CInt.wrap (sect.tmod o.sectors + 1)
  let sect := sect.tdiv o.sectors
  let h := CInt.wrap (sect.tmod o.heads)
  let sect := sect.tdiv o.heads
  let c := CInt.wrap sect
  (UInt8.ofInt h, UInt8.ofInt s ||| (UInt8.ofInt (c / 4) &&& 0xC0), UInt8.ofInt c)

def roundToCyl (o : Options) (sect : Int) : Int :=
  let sect := o.long sect
  let cylSize := CInt.wrap (o.heads * o.sectors)
  o.ulong (o.long (sect + cylSize - sect.tmod cylSize))

def roundToKb (o : Options) (sect : Int) : Int :=
  o.ulong (o.long (((sect - 1).tdiv o.kbAlign + 1) * o.kbAlign))

/-- the partition from `sect` on: its entry, and where it ends -/
def genPte (o : Options) (i : Nat) (p : Partinfo) (sect : Int) : Pte × Int :=
  let start := CInt.wrap (o.ulong (sect + o.sectors))
  let start := if o.kbAlign ≠ 0 then CInt.wrap (roundToKb o start) else start
  let sect := o.ulong (start + o.ulong (p.size * 2))
  let sect := if o.kbAlign = 0 then roundToCyl o sect else sect
  let len := CInt.wrap (o.ulong (sect - start))
  ({ active := if i + 1 = o.active then 0x80 else 0
     chsStart := toChs o start
     type := UInt8.ofInt p.type
     chsEnd := toChs o (CInt.wrap (start + len - 1))
     start := UInt32.ofInt start
     length := UInt32.ofInt len }, sect)

/-- the loop from partition `i` on -/
def genPtes (o : Options) : Nat → List Partinfo → Int → Option (List Pte)
  | _, [], _ => some []
  | i, p :: ps, sect =>
    if p.size = 0 then none
    else do
      let (pte, sect) := genPte o i p sect
      let ptes ← genPtes o (i + 1) ps sect
      some (pte :: ptes)

def genPtable (o : Options) (parts : List Partinfo) : Option (List Pte) := genPtes o 0 parts 0

/-! ## natural numbers -/

/-- the geometry of the options, in their ranges -/
structure Geometry (o : Options) where
  heads : Nat
  sectors : Nat
  kbAlign : Nat
  heads_eq : o.heads = heads
  sectors_eq : o.sectors = sectors
  kbAlign_eq : o.kbAlign = kbAlign
  heads_pos : 0 < heads
  heads_le : heads ≤ 255
  sectors_pos : 0 < sectors
  sectors_le : sectors ≤ 63

variable {o : Options} (g : Geometry o)

/-- the sectors of a cylinder -/
def Geometry.cyl : Nat := g.heads * g.sectors

def Geometry.start (sect : Nat) : Nat :=
  if g.kbAlign = 0 then sect + g.sectors
  else ((sect + g.sectors - 1) / g.kbAlign + 1) * g.kbAlign

def Geometry.stop (p : Partinfo) (sect : Nat) : Nat :=
  let e := g.start sect + 2 * p.size
  if g.kbAlign = 0 then e + (g.cyl - e % g.cyl) else e

/-- all sector numbers from `sect` on stay below `2^31` -/
def Geometry.Below : List Partinfo → Nat → Prop
  | [], _ => True
  | p :: ps, sect => g.stop p sect < 2147483648 ∧ Below ps (g.stop p sect)

theorem Geometry.add_le_start (sect : Nat) : sect + g.sectors ≤ g.start sect := by
  have hs := g.sectors_pos
  unfold Geometry.start
  split
  · exact Nat.le_refl _
  · next h =>
    have := Nat.lt_mul_div_succ (sect + g.sectors - 1) (Nat.pos_of_ne_zero h)
    rw [Nat.mul_comm] at this
    omega

theorem Geometry.lt_start (sect : Nat) : sect < g.start sect :=
  Nat.lt_of_lt_of_le (Nat.lt_add_of_pos_right g.sectors_pos) (g.add_le_start sect)

theorem Geometry.cyl_pos : 0 < g.cyl := Nat.mul_pos g.heads_pos g.sectors_pos

theorem Geometry.le_stop (p : Partinfo) (sect : Nat) : g.start sect + 2 * p.size ≤ g.stop p sect := by
  unfold Geometry.stop
  simp only
  split
  · exact Nat.le_add_right _ _
  · exact Nat.le_refl _

/-- a start is aligned -/
theorem Geometry.dvd_start (h : g.kbAlign ≠ 0) (sect : Nat) : g.kbAlign ∣ g.start sect := by
  unfold Geometry.start
  rw [if_neg h]
  exact Nat.dvd_mul_left _ _

/-- an end is the end of a cylinder -/
theorem Geometry.dvd_stop (h : g.kbAlign = 0) (p : Partinfo) (sect : Nat) : g.cyl ∣ g.stop p sect := by
  unfold Geometry.stop
  simp only [if_pos h]
  generalize g.start sect + 2 * p.size = e
  have hlt := Nat.mod_lt e g.cyl_pos
  have hdiv := Nat.div_add_mod e g.cyl
  exact ⟨e / g.cyl + 1, by rw [Nat.mul_add, Nat.mul_one]; omega⟩

/-! ## conversions -/

theorem wrap_nat {n : Nat} (h : n < 2147483648) : CInt.wrap n = n :=
  CInt.wrap_of_inRange (by unfold CInt.inRange; omega)

theorem ulong_nat {n : Nat} (h : n < 4294967296) : o.ulong n = n := by
  unfold Options.ulong Options.bits
  split <;> omega

theorem long_nat {n : Nat} (h : n < 2147483648) : o.long n = n := by
  unfold Options.long Options.bits
  split <;> omega

theorem uint32_nat {n : Nat} (h : n < 4294967296) : (UInt32.ofInt (n : Int)).toNat = n := by
  unfold UInt32.ofInt
  rw [UInt32.toNat_ofNat']
  omega

theorem roundToKb_eq {n : Nat} (hpos : 0 < n)
    (hlt : ((n - 1) / g.kbAlign + 1) * g.kbAlign < 2147483648) :
    roundToKb o n = (((n - 1) / g.kbAlign + 1) * g.kbAlign : Nat) := by
  unfold roundToKb
  rw [g.kbAlign_eq, show (n : Int) - 1 = ((n - 1 : Nat) : Int) by omega,
    Int.tdiv_eq_ediv_of_nonneg (Int.natCast_nonneg _)]
  have h : (((n - 1 : Nat) : Int) / g.kbAlign + 1) * g.kbAlign
      = (((n - 1) / g.kbAlign + 1) * g.kbAlign : Nat) := by
    push_cast
    rfl
  rw [h, long_nat hlt, ulong_nat (by omega)]

theorem roundToCyl_eq {n : Nat} (hlt : n + (g.cyl - n % g.cyl) < 2147483648) :
    roundToCyl o n = (n + (g.cyl - n % g.cyl) : Nat) := by
  have hcyl : CInt.wrap (o.heads * o.sectors) = g.cyl := by
    rw [g.heads_eq, g.sectors_eq, ← Int.natCast_mul]
    refine wrap_nat (Nat.lt_of_le_of_lt (Nat.mul_le_mul g.heads_le g.sectors_le) (by decide))
  have hmod := Nat.mod_lt n g.cyl_pos
  unfold roundToCyl
  simp only [hcyl]
  rw [long_nat (show n < 2147483648 by omega), Int.tmod_eq_emod_of_nonneg (Int.natCast_nonneg _),
    ← Int.natCast_emod, show (n : Int) + g.cyl - (n % g.cyl : Nat) = (n + (g.cyl - n % g.cyl) : Nat) by omega,
    long_nat hlt, ulong_nat (by omega)]

/-- **One partition**: where it starts, how long it is, and where the next one may start. -/
theorem genPte_eq (i : Nat) (p : Partinfo) {sect : Nat} (hlt : g.stop p sect < 2147483648) :
    (genPte o i p sect).2 = g.stop p sect ∧
    (genPte o i p sect).1.start.toNat = g.start sect ∧
    (genPte o i p sect).1.length.toNat = g.stop p sect - g.start sect ∧
    (genPte o i p sect).1.chsStart = toChs o (g.start sect) ∧
    (genPte o i p sect).1.chsEnd = toChs o (g.stop p sect - 1 : Nat) := by
  have hle := g.le_stop p sect
  have hls := g.lt_start sect
  have hstart : (if o.kbAlign ≠ 0 then CInt.wrap (roundToKb o (CInt.wrap (o.ulong (sect + o.sectors))))
      else CInt.wrap (o.ulong (sect + o.sectors))) = g.start sect := by
    have hraw : sect + g.sectors ≤ g.start sect := g.add_le_start sect
    rw [g.sectors_eq, ← Int.natCast_add, ulong_nat (by omega), wrap_nat (by omega), g.kbAlign_eq]
    unfold Geometry.start at hls hle hraw ⊢
    split
    · next h =>
      have hk : ¬g.kbAlign = 0 := by omega
      have hs := g.sectors_pos
      rw [if_neg hk] at hle hraw ⊢
      rw [roundToKb_eq g (by omega) (by omega), wrap_nat (by omega)]
    · next h => rw [if_pos (by omega)]
  have hstop : (if o.kbAlign = 0 then roundToCyl o (o.ulong (g.start sect + o.ulong (p.size * 2)))
      else o.ulong (g.start sect + o.ulong (p.size * 2))) = g.stop p sect := by
    rw [show (p.size : Int) * 2 = (2 * p.size : Nat) by omega, ulong_nat (by omega),
      ← Int.natCast_add, ulong_nat (by omega), g.kbAlign_eq]
    unfold Geometry.stop at hlt hle ⊢
    split
    · next h =>
      have hk : g.kbAlign = 0 := by omega
      simp only [if_pos hk] at hlt hle ⊢
      exact roundToCyl_eq g hlt
    · next h =>
      have hk : ¬g.kbAlign = 0 := by omega
      simp only [if_neg hk]
  have hlen : CInt.wrap (o.ulong ((g.stop p sect : Int) - g.start sect))
      = (g.stop p sect - g.start sect : Nat) := by
    rw [show (g.stop p sect : Int) - g.start sect = (g.stop p sect - g.start sect : Nat) by omega,
      ulong_nat (by omega), wrap_nat (by omega)]
  have hend : CInt.wrap ((g.start sect : Int) + (g.stop p sect - g.start sect : Nat) - 1)
      = (g.stop p sect - 1 : Nat) := by
    rw [show (g.start sect : Int) + (g.stop p sect - g.start sect : Nat) - 1
      = (g.stop p sect - 1 : Nat) by omega, wrap_nat (by omega)]
  unfold genPte
  simp only [hstart, hstop, hlen, hend]
  exact ⟨trivial, uint32_nat (by omega), uint32_nat (by omega), trivial, trivial⟩

/-! ## cylinders, heads and sectors -/

/-- the number of the cylinder in a CHS triple -/
def cylinder (chs : UInt8 × UInt8 × UInt8) : Nat := (chs.2.1 &&& 0xC0).toNat * 4 + chs.2.2.toNat

/-- the sector that a CHS triple names -/
def Geometry.decode (chs : UInt8 × UInt8 × UInt8) : Nat :=
  (cylinder chs * g.heads + chs.1.toNat) * g.sectors + ((chs.2.1 &&& 0x3F).toNat - 1)

theorem uint8_nat (n : Nat) : UInt8.ofInt (n : Int) = UInt8.ofNat n := by
  refine UInt8.toNat_inj.mp ?_
  unfold UInt8.ofInt
  rw [UInt8.toNat_ofNat', UInt8.toNat_ofNat']
  omega

theorem toChs_eq {n : Nat} (hn : n < 2147483648) : toChs o n
    = (UInt8.ofNat (n / g.sectors % g.heads),
      UInt8.ofNat (n % g.sectors + 1) ||| (UInt8.ofNat (n / g.sectors / g.heads / 4) &&& 0xC0),
      UInt8.ofNat (n / g.sectors / g.heads)) := by
  have hs := Nat.mod_lt n g.sectors_pos
  have hh := Nat.mod_lt (n / g.sectors) g.heads_pos
  have hs63 := g.sectors_le
  have hh255 := g.heads_le
  have hdiv : n / g.sectors ≤ n := Nat.div_le_self _ _
  have hdiv' : n / g.sectors / g.heads ≤ n / g.sectors := Nat.div_le_self _ _
  have htdiv (a b : Nat) : Int.tdiv a b = (a / b : Nat) := Int.tdiv_eq_ediv_of_nonneg (Int.natCast_nonneg a)
  have htmod (a b : Nat) : Int.tmod a b = (a % b : Nat) := Int.tmod_eq_emod_of_nonneg (Int.natCast_nonneg a)
  unfold toChs
  simp only [g.sectors_eq, g.heads_eq, htdiv, htmod]
  rw [show ((n % g.sectors : Nat) : Int) + 1 = (n % g.sectors + 1 : Nat) by omega, wrap_nat (by omega),
    wrap_nat (by omega), wrap_nat (by omega), uint8_nat, uint8_nat, uint8_nat]
  rw [show ((n / g.sectors / g.heads : Nat) : Int) / 4 = (n / g.sectors / g.heads / 4 : Nat) by omega,
    uint8_nat]

/-- the two bytes of the sector and the cylinder -/
theorem split_bytes : ∀ s < 64, ∀ k < 4,
    (UInt8.ofNat s ||| UInt8.ofNat (64 * k)) &&& 0x3F = UInt8.ofNat s ∧
    (UInt8.ofNat s ||| UInt8.ofNat (64 * k)) &&& 0xC0 = UInt8.ofNat (64 * k) := by
  decide +kernel

theorem high_bits : ∀ q < 256, UInt8.ofNat q &&& 0xC0 = UInt8.ofNat (64 * (q / 64)) := by
  decide +kernel

/-- **A triple** whose cylinder fits names the sector it was made from. -/
theorem decode_toChs {n : Nat} (hn : n < 2147483648) (hc : n / g.cyl < 1024) :
    g.decode (toChs o n) = n := by
  have hs := Nat.mod_lt n g.sectors_pos
  have hh := Nat.mod_lt (n / g.sectors) g.heads_pos
  have hs63 := g.sectors_le
  have hh255 := g.heads_le
  rw [Geometry.cyl, Nat.mul_comm, ← Nat.div_div_eq_div_mul] at hc
  generalize hcyl : n / g.sectors / g.heads = c at hc
  obtain ⟨h3f, hc0⟩ := split_bytes (n % g.sectors + 1) (by omega) (c / 256) (by omega)
  unfold Geometry.decode cylinder
  rw [toChs_eq g hn, hcyl, high_bits (c / 4) (by omega), show c / 4 / 64 = c / 256 by omega]
  simp only [h3f, hc0, UInt8.toNat_ofNat']
  rw [Nat.mod_eq_of_lt (by omega : 64 * (c / 256) < 2 ^ 8), Nat.mod_eq_of_lt (by omega : n % g.sectors + 1 < 2 ^ 8),
    Nat.mod_eq_of_lt (by omega : n / g.sectors % g.heads < 2 ^ 8), show 64 * (c / 256) * 4 + c % 2 ^ 8 = c by omega,
    Nat.add_sub_cancel, ← hcyl, Nat.div_add_mod', Nat.div_add_mod']

/-! ## the table -/

/-- what an entry says about its partition -/
structure Valid (p : Partinfo) (e : Pte) : Prop where
  free : 0 < e.start.toNat
  size : 2 * p.size ≤ e.length.toNat
  aligned : g.kbAlign ≠ 0 → g.kbAlign ∣ e.start.toNat
  whole : g.kbAlign = 0 → g.heads * g.sectors ∣ e.start.toNat + e.length.toNat
  chsStart : e.start.toNat / (g.heads * g.sectors) < 1024 → g.decode e.chsStart = e.start.toNat
  chsEnd : (e.start.toNat + e.length.toNat - 1) / (g.heads * g.sectors) < 1024 →
    g.decode e.chsEnd = e.start.toNat + e.length.toNat - 1

/-- `e` is in front of `e'` -/
def Before (e e' : Pte) : Prop :=
  e.start.toNat < e'.start.toNat ∧ e.start.toNat + e.length.toNat ≤ e'.start.toNat

theorem genPte_valid (i : Nat) (p : Partinfo) {sect : Nat} (hlt : g.stop p sect < 2147483648) :
    Valid g p (genPte o i p sect).1 := by
  obtain ⟨-, hstart, hlen, hcs, hce⟩ := genPte_eq g i p hlt
  have hle := g.le_stop p sect
  have hls := g.lt_start sect
  have hend : g.start sect + (g.stop p sect - g.start sect) = g.stop p sect := by omega
  constructor
  case free => omega
  case size => omega
  case aligned =>
    intro h
    rw [hstart]
    exact g.dvd_start h sect
  case whole =>
    intro h
    rw [hstart, hlen, hend]
    exact g.dvd_stop h p sect
  case chsStart =>
    intro h
    rw [hstart] at h ⊢
    rw [hcs]
    exact decode_toChs g (by omega) h
  case chsEnd =>
    intro h
    rw [hstart, hlen, hend] at h ⊢
    rw [hce]
    exact decode_toChs g (by omega) h

/-- the loop from `sect` on -/
theorem genPtes_spec : ∀ (ps : List Partinfo) (i : Nat) {sect : Nat}, (∀ p ∈ ps, p.size ≠ 0) →
    g.Below ps sect → ∃ ptes, genPtes o i ps sect = some ptes ∧
      List.Forall₂ (Valid g) ps ptes ∧ ptes.Pairwise Before ∧ ∀ e ∈ ptes, sect < e.start.toNat
  | [], _, _, _, _ => ⟨[], rfl, .nil, .nil, fun _ he => nomatch he⟩
  | p :: ps, i, sect, hsize, ⟨hlt, hbelow⟩ => by
    obtain ⟨hsect, hstart, hlen, -, -⟩ := genPte_eq g i p hlt
    obtain ⟨ptes, hrun, hvalid, hpair, hlow⟩ :=
      genPtes_spec ps (i + 1) (fun q hq => hsize q (List.mem_cons_of_mem _ hq)) hbelow
    have hle := g.le_stop p sect
    have hls := g.lt_start sect
    refine ⟨(genPte o i p sect).1 :: ptes, ?_, .cons (genPte_valid g i p hlt) hvalid, ?_, ?_⟩
    · show (if p.size = 0 then none else (genPtes o (i + 1) ps (genPte o i p sect).2).bind _) = _
      rw [if_neg (hsize p List.mem_cons_self), hsect, hrun]
      rfl
    · -- the next partition starts behind where this one ends
      refine List.pairwise_cons.mpr ⟨fun e he => ?_, hpair⟩
      have := hlow e he
      unfold Before
      omega
    · rintro e (_ | ⟨_, he⟩)
      · omega
      · have := hlow e he
        omega

/-- **The table**: the partitions are valid, and each is in front of the next. -/
theorem genPtable_spec (parts : List Partinfo) (hsize : ∀ p ∈ parts, p.size ≠ 0)
    (hbelow : g.Below parts 0) : ∃ ptes, genPtable o parts = some ptes ∧
      List.Forall₂ (Valid g) parts ptes ∧ ptes.Pairwise Before := by
  obtain ⟨ptes, hrun, hvalid, hpair, -⟩ := genPtes_spec g parts 0 hsize hbelow
  exact ⟨ptes, hrun, hvalid, hpair⟩

/-- 16 heads, 63 sectors, a boot partition and a root partition -/
def small : Geometry ⟨true, 1, 16, 63, 0⟩ :=
  ⟨16, 63, 0, rfl, rfl, rfl, by decide, by decide, by decide, by decide⟩

theorem genPtable_small : ∃ ptes, genPtable ⟨true, 1, 16, 63, 0⟩ [⟨4096, 0x83⟩, ⟨49152, 0x83⟩] = some ptes ∧
    List.Forall₂ (Valid small) [⟨4096, 0x83⟩, ⟨49152, 0x83⟩] ptes ∧ ptes.Pairwise Before :=
  genPtable_spec small [⟨4096, 0x83⟩, ⟨49152, 0x83⟩] (by decide) ⟨by decide, by decide, trivial⟩

end Ptgen
