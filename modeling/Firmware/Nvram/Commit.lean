import Firmware.Nvram.Image

/-!
# nvram: what a commit writes and what a parse reads

* `rehashLoop_records`   the parser on a sequence of records sets exactly these tuples;
* `nvramRehash_records`  hence the map after `_nvram_rehash`: the records, and the SDRAM defaults
                         for names without a record (`parsedGet`);
* `fit`                  the tuples the commit loop has room for: of every chain the longest
                         beginning that still fits;
* `commitImage_some`     the committed image: header, the records of `fit`, an empty record;
* `commitImage_none`     the padding may leave the mapping when the last bytes are used.
-/

set_option linter.unusedVariables false

namespace Nvram
open Img Word CStr

variable {host : Host}

/-! ## records -/

/-- the bytes of a list of tuples with values -/
def records (ps : List (CStr × CStr)) : List UInt8 := ps.flatMap fun p => record p.1 p.2

theorem records_cons (p : CStr × CStr) (ps : List (CStr × CStr)) :
    records (p :: ps) = record p.1 p.2 ++ records ps := rfl

theorem records_append (ps qs : List (CStr × CStr)) :
    records (ps ++ qs) = records ps ++ records qs := List.flatMap_append

theorem record_length (n v : CStr) : (record n v).length = n.length + v.length + 2 := by
  simp only [record, List.length_append, List.length_cons, List.length_nil]
  show n.length + (v.length + (0 + 1) + 1) = _
  omega

/-- a record cut at its first `=`, as the parser does -/
def recut (p : CStr × CStr) : CStr × CStr :=
  if h : eqSign ∈ p.1.bytes then
    (⟨p.1.bytes.takeWhile (· ≠ eqSign), fun hm => p.1.nul_free
        ((List.takeWhile_prefix _).subset hm)⟩,
      ⟨(p.1.bytes.dropWhile (· ≠ eqSign)).tail ++ eqSign :: p.2.bytes, by
        intro hm
        rcases List.mem_append.mp hm with hm | hm
        · exact p.1.nul_free ((List.dropWhile_suffix _).subset (List.mem_of_mem_tail hm))
        · rcases List.mem_cons.mp hm with hm | hm
          · exact absurd hm (by decide)
          · exact p.2.nul_free hm⟩)
  else p

theorem recut_name (p : CStr × CStr) : eqSign ∉ (recut p).1.bytes := by
  unfold recut
  split
  · intro hm
    have := List.mem_takeWhile_imp hm
    simp at this
  · assumption

theorem recut_of_not_mem (p : CStr × CStr) (h : eqSign ∉ p.1.bytes) : recut p = p := dif_neg h

theorem cut_eq {l : List UInt8} (h : eqSign ∈ l) :
    l = l.takeWhile (· ≠ eqSign) ++ eqSign :: (l.dropWhile (· ≠ eqSign)).tail := by
  have hd : l.dropWhile (· ≠ eqSign) = eqSign :: (l.dropWhile (· ≠ eqSign)).tail := by
    cases hc : l.dropWhile (· ≠ eqSign) with
    | nil =>
      have := List.dropWhile_eq_nil_iff.mp hc eqSign h
      simp at this
    | cons x r =>
      have hx := List.head?_dropWhile_not (· ≠ eqSign) l
      rw [hc] at hx
      have hx' : x = eqSign := by simpa using hx
      rw [hx']
      rfl
  rw [← hd, List.takeWhile_append_dropWhile]

theorem record_recut (p : CStr × CStr) :
    record (recut p).1 (recut p).2 = record p.1 p.2 := by
  by_cases h : eqSign ∈ p.1.bytes
  · unfold recut
    rw [dif_pos h]
    unfold record
    conv_rhs => rw [cut_eq h]
    simp
  · rw [recut_of_not_mem p h]

/-- the parser takes a name for `k` when it is `k`, or starts with `k` and an `=` -/
theorem find_recut {ps : List (CStr × CStr)} {k : CStr} (hk : eqSign ∉ k.bytes)
    (hn : ∀ p ∈ ps, ¬ k.bytes ++ [eqSign] <+: p.1.bytes) :
    Chain.find (ps.map recut) k = Chain.find ps k := by
  induction ps with
  | nil => rfl
  | cons p ps ih =>
    rw [List.map_cons, Chain.find, Chain.find, ih fun q hq => hn q (List.mem_cons_of_mem p hq)]
    by_cases h : eqSign ∈ p.1.bytes
    · have h1 : ¬ (recut p).1 = k := by
        intro e
        refine hn p List.mem_cons_self ⟨(p.1.bytes.dropWhile (· ≠ eqSign)).tail, ?_⟩
        conv_rhs => rw [cut_eq h]
        rw [← e, recut, dif_pos h]
        simp
      have h2 : ¬ p.1 = k := fun e => hk (e ▸ h)
      rw [if_neg h1, if_neg h2]
    · rw [recut_of_not_mem p h]

/-- of two records that the parser takes for `k` the later one counts -/
theorem find_recut_last {ps : List (CStr × CStr)} {p q : CStr × CStr} {k : CStr}
    (hn : (ps.map Prod.fst).Nodup) (hs : [p, q].Sublist ps) (hq : (recut q).1 = k)
    (honly : ∀ r ∈ ps, (recut r).1 = k → r = p ∨ r = q) :
    Chain.find (ps.map recut).reverse k = some (recut q).2 := by
  obtain ⟨a, b, rfl, hp, hs⟩ := List.cons_sublist_iff.mp hs
  obtain ⟨b, c, rfl⟩ := List.append_of_mem (List.singleton_sublist.mp hs)
  have hc : Chain.find (c.map recut).reverse k = none := by
    refine Chain.find_eq_none.mpr fun hm => ?_
    obtain ⟨r', hr', hk⟩ := List.mem_map.mp hm
    obtain ⟨r, hr, rfl⟩ := List.mem_map.mp (List.mem_reverse.mp hr')
    rw [List.map_append, List.nodup_append] at hn
    rcases honly r (by simp [hr]) hk with rfl | rfl
    · exact hn.2.2 _ (List.mem_map_of_mem hp) _ (List.mem_map_of_mem (by simp [hr])) rfl
    · have hn' := hn.2.1
      rw [List.map_append, List.nodup_append] at hn'
      exact (List.nodup_cons.mp hn'.2.1).1 (List.mem_map_of_mem hr)
  rw [← List.append_assoc, List.map_append, List.map_cons, List.reverse_append,
    List.reverse_cons, List.append_assoc, Chain.find_append, hc]
  show (if (recut q).1 = k then some (recut q).2 else _) = _
  rw [if_pos hq]

theorem records_recut (ps : List (CStr × CStr)) : records (ps.map recut) = records ps := by
  induction ps with
  | nil => rfl
  | cons p ps ih => rw [List.map_cons, records_cons, records_cons, ih, record_recut]

/-! ## the parser -/

private theorem set_mid (a b : List UInt8) (x y : UInt8) :
    (a ++ x :: b).set a.length y = a ++ y :: b := by
  rw [List.set_append_right _ _ (Nat.le_refl _), Nat.sub_self]
  rfl

/-- one iteration, from what the library functions return in it -/
theorem rehashLoop_step {fuel name i l : Nat} {m : List UInt8} {c : UInt8} {n v : CStr}
    {h : Handle host} (hc : m[name]? = some c) (hc0 : ¬ c = 0)
    (hs : strchr eqSign (m.drop name) = some (some i))
    (hn : cstr ((m.set (name + i) 0).drop name) = some n)
    (hv : cstr ((m.set (name + i) 0).drop (name + i + 1)) = some v)
    (hr : (m.set (name + i) 0).set (name + i) eqSign = m)
    (hl : strlen (m.drop (name + i + 1)) = some l) :
    rehashLoop (fuel + 1) m name h
      = rehashLoop fuel m (name + i + 1 + l + 1) (nvramSet .ok h n v).2 := by
  simp only [rehashLoop, hc, hs, hn, hv, hr, hl, if_neg hc0, Option.bind_eq_bind,
    Option.bind_some]

/-- one iteration on a record -/
theorem rehashLoop_record (fuel : Nat) (a z : List UInt8) (n v : CStr) (h : Handle host)
    (hn : eqSign ∉ n.bytes) :
    rehashLoop (fuel + 1) (a ++ (record n v ++ z)) a.length h
      = rehashLoop fuel (a ++ (record n v ++ z)) (a.length + (record n v).length)
          (nvramSet .ok h n v).2 := by
  have e0 : record n v ++ z = n.bytes ++ eqSign :: (v.bytes ++ 0 :: z) := by simp [record]
  have e1 : a ++ (record n v ++ z) = (a ++ n.bytes) ++ eqSign :: (v.bytes ++ 0 :: z) := by
    rw [e0, List.append_assoc]
  have e2 : (a ++ n.bytes).length = a.length + n.bytes.length := List.length_append
  have hset : (a ++ (record n v ++ z)).set (a.length + n.bytes.length) 0
      = (a ++ n.bytes) ++ 0 :: (v.bytes ++ 0 :: z) := by rw [e1, ← e2, set_mid]
  have hdrop : ∀ (x : UInt8) (l : List UInt8),
      ((a ++ n.bytes) ++ x :: l).drop (a.length + n.bytes.length + 1) = l := by
    intro x l
    rw [← e2, ← List.drop_drop, List.drop_left]
    rfl
  obtain ⟨c, hc, hc0⟩ : ∃ c, (a ++ (record n v ++ z))[a.length]? = some c ∧ ¬ c = 0 := by
    rw [List.getElem?_append_right (Nat.le_refl _), Nat.sub_self, e0]
    cases hb : n.bytes with
    | nil => exact ⟨eqSign, rfl, by decide⟩
    | cons b l => exact ⟨b, rfl, fun e => n.nul_free (by rw [hb, e]; simp)⟩
  rw [rehashLoop_step hc hc0 (i := n.bytes.length) (n := n) (v := v) (l := v.bytes.length)]
  · congr 1
    rw [record_length]
    show _ = a.length + (n.bytes.length + v.bytes.length + 2)
    omega
  · rw [List.drop_left, e0, strchr_append _ _ _ n.nul_free hn]
  · rw [hset, List.append_assoc, List.drop_left, cstr_append]
  · rw [hset, hdrop, cstr_append]
  · rw [hset, ← e2, set_mid, e1]
  · rw [e1, hdrop, strlen_append _ _ v.nul_free]

/-- the tuples a list of pairs sets, in turn -/
def setAll (ps : List (CStr × CStr)) (h : Handle host) : Handle host :=
  ps.foldl (fun h p => (nvramSet .ok h p.1 p.2).2) h

/-- the whole loop: the records up to the empty one -/
theorem rehashLoop_records (ps : List (CStr × CStr)) (hn : ∀ p ∈ ps, eqSign ∉ p.1.bytes) :
    ∀ (fuel : Nat) (a z : List UInt8) (h : Handle host), ps.length < fuel →
      rehashLoop fuel (a ++ (records ps ++ 0 :: z)) a.length h
        = some (a ++ (records ps ++ 0 :: z), setAll ps h) := by
  induction ps with
  | nil =>
    intro fuel a z h hf
    obtain ⟨fuel, rfl⟩ : ∃ k, fuel = k + 1 := ⟨fuel - 1, by simp at hf; omega⟩
    show (do
      let c ← (a ++ ([] ++ 0 :: z))[a.length]?
      if c = 0 then some (a ++ ([] ++ 0 :: z), h) else _) = _
    rw [List.getElem?_append_right (Nat.le_refl _), Nat.sub_self]
    rfl
  | cons p ps ih =>
    intro fuel a z h hf
    obtain ⟨fuel, rfl⟩ : ∃ k, fuel = k + 1 := ⟨fuel - 1, by simp at hf; omega⟩
    have e : a ++ (records (p :: ps) ++ 0 :: z)
        = a ++ (record p.1 p.2 ++ (records ps ++ 0 :: z)) := by
      rw [records_cons, List.append_assoc]
    have e' : a ++ (record p.1 p.2 ++ (records ps ++ 0 :: z))
        = (a ++ record p.1 p.2) ++ (records ps ++ 0 :: z) := by rw [List.append_assoc]
    rw [e, rehashLoop_record _ _ _ _ _ _ (hn p List.mem_cons_self), e', ← List.length_append,
      ih (fun q hq => hn q (List.mem_cons_of_mem _ hq)) fuel (a ++ record p.1 p.2) z _
        (by simp at hf; omega)]
    rfl

/-! ## the map after a parse -/

theorem frame_setAll (ps : List (CStr × CStr)) (h : Handle host) :
    (setAll ps h).frame = h.frame := by
  induction ps generalizing h with
  | nil => rfl
  | cons p ps ih =>
    show (setAll ps (nvramSet .ok h p.1 p.2).2).frame = _
    rw [ih, frame_nvramSet]

/-- the last record of a name counts -/
theorem get_setAll (ps : List (CStr × CStr)) (h : Handle host)
    (hv : ∀ p ∈ ps, p.2.length + 1 ≤ h.space) (k : CStr) :
    nvramGet (setAll ps h) k = (Chain.find ps.reverse k).or (nvramGet h k) := by
  induction ps generalizing h with
  | nil => rfl
  | cons p ps ih =>
    have hs := Handle.space_of_frame (frame_nvramSet .ok h p.1 p.2)
    show nvramGet (setAll ps (nvramSet .ok h p.1 p.2).2) k = _
    rw [ih _ (fun q hq => by rw [hs]; exact hv q (List.mem_cons_of_mem _ hq)),
      get_nvramSet h _ _ _ (hv p List.mem_cons_self), List.reverse_cons, Chain.find_append,
      Option.or_assoc]
    congr 1
    by_cases e : k = p.1
    · simp [Chain.find, e]
    · have e' : ¬ p.1 = k := fun e'' => e e''.symm
      simp [Chain.find, e, e']

theorem frame_setDefault (h : Handle host) (n v : CStr) : (setDefault h n v).frame = h.frame := by
  unfold setDefault
  split
  · exact frame_nvramSet .ok h n v
  · rfl

theorem get_setDefault (h : Handle host) (n v k : CStr) (hv : v.length + 1 ≤ h.space) :
    nvramGet (setDefault h n v) k = (nvramGet h k).or (if k = n then some v else none) := by
  unfold setDefault
  by_cases hn : nvramGet h n = none
  · rw [if_pos hn, get_nvramSet h n v k hv]
    by_cases e : k = n
    · rw [if_pos e, if_pos e, e, hn]; rfl
    · rw [if_neg e, if_neg e, Option.or_none]
  · rw [if_neg hn]
    by_cases e : k = n
    · obtain ⟨v', hv'⟩ := Option.ne_none_iff_exists'.mp hn
      rw [if_pos e, e, hv']; rfl
    · rw [if_neg e, Option.or_none]

/-- the variables `_nvram_rehash` takes from the header words -/
def sdramDefault (cvi cr cn : UInt32) (k : CStr) : Option CStr :=
  (((if k = nameInit then some (hex0x 4 (cvi >>> 16).toNat) else none).or
    (if k = nameConfig then some (hex0x 4 (cr &&& 0xffff).toNat) else none)).or
    (if k = nameRefresh then some (hex0x 4 (cr >>> 16 &&& 0xffff).toNat) else none)).or
    (if k = nameNcdl then some (hex0x 8 cn.toNat) else none)

theorem sdramDefault_of_not_mem (cvi cr cn : UInt32) (k : CStr) (hk : k ∉ sdramNames) :
    sdramDefault cvi cr cn k = none := by
  simp only [sdramNames, List.mem_cons, List.not_mem_nil, or_false, not_or] at hk
  unfold sdramDefault
  rw [if_neg hk.1, if_neg hk.2.1, if_neg hk.2.2.1, if_neg hk.2.2.2]
  rfl

/-- the map after `_nvram_rehash` on an image with the records `ps` -/
def parsedGet (ps : List (CStr × CStr)) (cvi cr cn : UInt32) (k : CStr) : Option CStr :=
  (Chain.find ps k).or (sdramDefault cvi cr cn k)

theorem parsedGet_reverse {ps : List (CStr × CStr)} (hk : (ps.map Prod.fst).Nodup)
    (cvi cr cn : UInt32) (k : CStr) : parsedGet ps.reverse cvi cr cn k = parsedGet ps cvi cr cn k := by
  unfold parsedGet
  rw [Chain.find_reverse hk]

/-- an image: three words of no interest here, the header words, the records, an empty record -/
structure Layout (big : Bool) (m : List UInt8) (ps : List (CStr × CStr))
    (cvi cr cn : UInt32) : Prop where
  split : ∃ a z, a.length = 8 ∧
    m = (a ++ (put32 big cvi ++ (put32 big cr ++ put32 big cn))) ++ (records ps ++ 0 :: z)

theorem records_length_le (ps : List (CStr × CStr)) : ps.length ≤ (records ps).length := by
  induction ps with
  | nil => simp [records]
  | cons p ps ih =>
    rw [records_cons, List.length_append, record_length, List.length_cons]
    omega

theorem value_length_le {ps : List (CStr × CStr)} {p : CStr × CStr} (hp : p ∈ ps) :
    p.2.length + 2 ≤ (records ps).length := by
  induction ps with
  | nil => exact absurd hp (by simp)
  | cons q ps ih =>
    rw [records_cons, List.length_append, record_length]
    rcases List.mem_cons.mp hp with rfl | hp
    · omega
    · have := ih hp
      omega

/-- **The parser on a well-formed image**: it succeeds, keeps the image, and the map it leaves is
that of the records and the SDRAM defaults. -/
theorem nvramRehash_records (h : Handle host) (ps : List (CStr × CStr)) (cvi cr cn : UInt32)
    (hm : Layout host.big h.area ps cvi cr cn) (ho : h.offset ≤ h.mmap.length)
    (hn : ∀ p ∈ ps, eqSign ∉ p.1.bytes) :
    ∃ h', nvramRehash h = some (0, h') ∧ h'.frame = h.frame ∧
      ∀ k, nvramGet h' k = parsedGet ps.reverse cvi cr cn k := by
  obtain ⟨a, z, ha, hm⟩ := hm.split
  have hl : (a ++ (put32 host.big cvi ++ (put32 host.big cr ++ put32 host.big cn))).length
      = headerLen := by
    simp [ha, headerLen]
  have hs : h.space = headerLen + ((records ps).length + (z.length + 1)) := by
    rw [← h.area_length, hm, List.length_append, hl, List.length_append, List.length_cons]
  have hf : ps.length < h.area.length + 1 := by
    have := records_length_le ps
    rw [h.area_length]
    omega
  have hloop := rehashLoop_records ps hn (h.area.length + 1)
    (a ++ (put32 host.big cvi ++ (put32 host.big cr ++ put32 host.big cn))) z
    (nvramFree h) hf
  rw [← hm, hl] at hloop
  have h8 : load32 host.big h.area 8 = some cvi := load32_split (c := put32 host.big cr
    ++ (put32 host.big cn ++ (records ps ++ 0 :: z))) (a := a) (by rw [hm]; simp) ha
  have h12 : load32 host.big h.area 12 = some cr := load32_split (c := put32 host.big cn
    ++ (records ps ++ 0 :: z)) (a := a ++ put32 host.big cvi) (by rw [hm]; simp) (by simp [ha])
  have h16 : load32 host.big h.area 16 = some cn := load32_split (c := records ps ++ 0 :: z)
    (a := a ++ (put32 host.big cvi ++ put32 host.big cr)) (by rw [hm]; simp) (by simp [ha])
  let h1 := setAll ps (nvramFree h)
  let h2 := setDefault h1 nameInit (hex0x 4 (cvi >>> 16).toNat)
  let h3 := setDefault h2 nameConfig (hex0x 4 (cr &&& 0xffff).toNat)
  let h4 := setDefault h3 nameRefresh (hex0x 4 (cr >>> 16 &&& 0xffff).toNat)
  let h5 := setDefault h4 nameNcdl (hex0x 8 cn.toNat)
  have f1 : h1.frame = h.frame := frame_setAll ps _
  have f2 : h2.frame = h.frame := (frame_setDefault h1 _ _).trans f1
  have f3 : h3.frame = h.frame := (frame_setDefault h2 _ _).trans f2
  have f4 : h4.frame = h.frame := (frame_setDefault h3 _ _).trans f3
  have f5 : h5.frame = h.frame := (frame_setDefault h4 _ _).trans f4
  have hmm : h.mmap.take h.offset ++ h.area = h.mmap := List.take_append_drop _ _
  refine ⟨{ h5 with mmap := h.mmap.take h.offset ++ h.area }, ?_, ?_, ?_⟩
  · unfold nvramRehash
    rw [hloop]
    simp only [Option.bind_eq_bind, Option.bind_some, h8, h12, h16]
    rfl
  · obtain ⟨e1, _, e3⟩ := Handle.frame_eq f5
    show (h5.addr, h.mmap.take h.offset ++ h.area, h5.offset) = _
    rw [hmm, e1, e3]
    rfl
  · intro k
    have hx : ∀ w n, (hex0x w n).length = w + 2 := hex0x_length
    have hsp : headerLen = 20 := rfl
    show nvramGet h5 k = _
    rw [get_setDefault h4 _ _ _ (by rw [hx, Handle.space_of_frame f4]; omega),
      get_setDefault h3 _ _ _ (by rw [hx, Handle.space_of_frame f3]; omega),
      get_setDefault h2 _ _ _ (by rw [hx, Handle.space_of_frame f2]; omega),
      get_setDefault h1 _ _ _ (by rw [hx, Handle.space_of_frame f1]; omega),
      get_setAll ps _ (fun p hp => by
        have := value_length_le hp
        show _ ≤ h.space
        omega)]
    show ((((((Chain.find ps.reverse k).or none).or _).or _).or _).or _) = _
    rw [Option.or_none]
    unfold parsedGet sdramDefault
    simp only [Option.or_assoc]

/-! ## which tuples are written -/

/-- the longest beginning of a chain that ends before `e` when it starts at `ptr` -/
def fitChain (e : Nat) : Nat → List Tuple → List Tuple
  | _, [] => []
  | ptr, t :: ts =>
    if ptr + tupleSize t > e then [] else t :: fitChain e (ptr + tupleSize t) ts

def sizes (ts : List Tuple) : Nat := (ts.map tupleSize).sum

/-- the same for one chain after the other -/
def fit (e : Nat) : Nat → List (List Tuple) → List Tuple
  | _, [] => []
  | ptr, c :: cs => fitChain e ptr c ++ fit e (ptr + sizes (fitChain e ptr c)) cs

theorem sizes_append (ts us : List Tuple) : sizes (ts ++ us) = sizes ts + sizes us := by
  simp [sizes]

theorem sizes_cons (t : Tuple) (ts : List Tuple) : sizes (t :: ts) = tupleSize t + sizes ts := rfl

theorem fitChain_sublist (e ptr : Nat) (ts : List Tuple) : (fitChain e ptr ts).Sublist ts := by
  induction ts generalizing ptr with
  | nil => exact List.Sublist.slnil
  | cons t ts ih =>
    unfold fitChain
    split
    · exact List.nil_sublist _
    · exact (ih _).cons_cons t

theorem fit_sublist (e ptr : Nat) (cs : List (List Tuple)) : (fit e ptr cs).Sublist cs.flatten := by
  induction cs generalizing ptr with
  | nil => exact List.Sublist.slnil
  | cons c cs ih => exact (fitChain_sublist e ptr c).append (ih _)

theorem sizes_fitChain_le (e ptr : Nat) (ts : List Tuple) (h : ptr ≤ e) :
    ptr + sizes (fitChain e ptr ts) ≤ e := by
  induction ts generalizing ptr with
  | nil => exact h
  | cons t ts ih =>
    unfold fitChain
    split
    · exact h
    · next ht =>
      have := ih (ptr + tupleSize t) (by omega)
      rw [sizes_cons]
      omega

theorem sizes_fit_le (e ptr : Nat) (cs : List (List Tuple)) (h : ptr ≤ e) :
    ptr + sizes (fit e ptr cs) ≤ e := by
  induction cs generalizing ptr with
  | nil => exact h
  | cons c cs ih =>
    have h1 := sizes_fitChain_le e ptr c h
    have h2 := ih (ptr + sizes (fitChain e ptr c)) h1
    show ptr + sizes (fitChain e ptr c ++ _) ≤ e
    rw [sizes_append]
    omega

theorem fitChain_all (e ptr : Nat) (ts : List Tuple) (h : ptr + sizes ts ≤ e) :
    fitChain e ptr ts = ts := by
  induction ts generalizing ptr with
  | nil => rfl
  | cons t ts ih =>
    rw [sizes_cons] at h
    unfold fitChain
    rw [if_neg (by omega), ih _ (by omega)]

/-- when everything fits everything is written -/
theorem fit_all (e ptr : Nat) (cs : List (List Tuple)) (h : ptr + sizes cs.flatten ≤ e) :
    fit e ptr cs = cs.flatten := by
  induction cs generalizing ptr with
  | nil => rfl
  | cons c cs ih =>
    rw [List.flatten_cons, sizes_append] at h
    unfold fit
    rw [fitChain_all e ptr c (by omega), ih _ (by omega), List.flatten_cons]

/-- the tuples with their values -/
def pairs (ts : List Tuple) : List (CStr × CStr) := ts.filterMap fun t => t.2.map fun v => (t.1, v)

theorem pairs_append (ts us : List Tuple) : pairs (ts ++ us) = pairs ts ++ pairs us :=
  List.filterMap_append

theorem pairs_cons_some (n v : CStr) (ts : List Tuple) :
    pairs ((n, some v) :: ts) = (n, v) :: pairs ts := rfl

theorem length_records_pairs (ts : List Tuple) : (records (pairs ts)).length = sizes ts := by
  induction ts with
  | nil => rfl
  | cons t ts ih =>
    obtain ⟨n, v⟩ := t
    rw [sizes_cons]
    cases v with
    | none =>
      show (records (pairs ts)).length = 0 + sizes ts
      rw [ih, Nat.zero_add]
    | some v =>
      rw [pairs_cons_some, records_cons, List.length_append, record_length, ih]
      rfl

theorem map_fst_pairs (ts : List Tuple) (hv : ∀ t ∈ ts, t.2 ≠ none) :
    (pairs ts).map Prod.fst = ts.map Prod.fst := by
  induction ts with
  | nil => rfl
  | cons t ts ih =>
    obtain ⟨n, v⟩ := t
    cases v with
    | none => exact absurd rfl (hv _ List.mem_cons_self)
    | some v =>
      rw [pairs_cons_some, List.map_cons, List.map_cons,
        ih (fun t ht => hv t (List.mem_cons_of_mem _ ht))]

theorem mem_pairs {ts : List Tuple} {p : CStr × CStr} :
    p ∈ pairs ts ↔ (p.1, some p.2) ∈ ts := by
  obtain ⟨n, v⟩ := p
  simp only [pairs, List.mem_filterMap, Option.map_eq_some_iff, Prod.mk.injEq]
  constructor
  · rintro ⟨⟨n', v'⟩, hm, w, rfl, rfl, rfl⟩
    exact hm
  · intro hm
    exact ⟨_, hm, v, rfl, rfl, rfl⟩

/-! ## the write loop -/

/-- one chain, written behind `p` -/
theorem writeChain_eq (e : Nat) (ts : List Tuple) (hv : ∀ t ∈ ts, t.2 ≠ none) :
    ∀ (p r : List UInt8) (w : List Tuple), e ≤ (p ++ r).length →
      ∃ r', writeChain e ts ⟨p ++ r, p.length, w⟩
          = some ⟨(p ++ records (pairs (fitChain e p.length ts))) ++ r',
              (p ++ records (pairs (fitChain e p.length ts))).length,
              w ++ fitChain e p.length ts⟩ ∧
        sizes (fitChain e p.length ts) + r'.length = r.length := by
  induction ts with
  | nil =>
    intro p r w _
    refine ⟨r, ?_, ?_⟩
    · show some (⟨p ++ r, p.length, w⟩ : Out) = some ⟨(p ++ []) ++ r, (p ++ []).length, w ++ []⟩
      simp
    · show 0 + r.length = r.length
      omega
  | cons t ts ih =>
    intro p r w he
    obtain ⟨n, v⟩ := t
    cases v with
    | none => exact absurd rfl (hv _ List.mem_cons_self)
    | some v =>
      have hsz : tupleSize (n, some v) = n.length + v.length + 2 := rfl
      by_cases hb : p.length + tupleSize (n, some v) > e
      · refine ⟨r, ?_, ?_⟩
        · unfold fitChain
          rw [if_pos hb]
          show (if p.length + n.length + 1 + v.length + 1 > e then some (⟨p ++ r, p.length, w⟩ : Out)
            else _) = some ⟨(p ++ []) ++ r, (p ++ []).length, w ++ []⟩
          rw [if_pos (by omega)]
          simp
        · unfold fitChain
          rw [if_pos hb]
          show 0 + r.length = r.length
          omega
      · have hr : (record n v).length ≤ r.length := by
          rw [record_length]
          rw [List.length_append] at he
          omega
        have hst := store_behind (p := p) (r := r) (d := record n v) rfl rfl hr
        have hl : (p ++ record n v).length = p.length + tupleSize (n, some v) := by
          rw [List.length_append, record_length, hsz]
        obtain ⟨r', h1, h2⟩ := ih (fun t ht => hv t (List.mem_cons_of_mem _ ht))
          (p ++ record n v) (r.drop (record n v).length) (w ++ [(n, some v)]) (by
            rw [List.length_append, List.length_append, List.length_drop]
            rw [List.length_append] at he
            omega)
        rw [hl] at h1 h2
        refine ⟨r', ?_, ?_⟩
        · unfold fitChain
          rw [if_neg hb, pairs_cons_some, records_cons]
          show (if p.length + n.length + 1 + v.length + 1 > e then some (⟨p ++ r, p.length, w⟩ : Out)
            else (store (p ++ r) p.length (record n v)).bind fun m => writeChain e ts
              ⟨m, p.length + (n.length + 1 + v.length) + 1, w ++ [(n, some v)]⟩) = _
          rw [if_neg (by omega), hst, Option.bind_some, ← List.append_assoc,
            show p.length + (n.length + 1 + v.length) + 1 = p.length + tupleSize (n, some v) by
              omega, h1]
          simp
        · unfold fitChain
          rw [if_neg hb, sizes_cons]
          rw [List.length_drop, record_length] at h2
          rw [record_length] at hr
          omega

theorem writeTuples_eq (e : Nat) (cs : List (List Tuple)) (hv : ∀ t ∈ cs.flatten, t.2 ≠ none) :
    ∀ (p r : List UInt8) (w : List Tuple), e ≤ (p ++ r).length →
      ∃ r', writeTuples e cs ⟨p ++ r, p.length, w⟩
          = some ⟨(p ++ records (pairs (fit e p.length cs))) ++ r',
              (p ++ records (pairs (fit e p.length cs))).length, w ++ fit e p.length cs⟩ ∧
        sizes (fit e p.length cs) + r'.length = r.length := by
  induction cs with
  | nil =>
    intro p r w _
    refine ⟨r, ?_, ?_⟩
    · show some (⟨p ++ r, p.length, w⟩ : Out) = some ⟨(p ++ []) ++ r, (p ++ []).length, w ++ []⟩
      simp
    · show 0 + r.length = r.length
      omega
  | cons c cs ih =>
    intro p r w he
    obtain ⟨r1, h1, h2⟩ := writeChain_eq e c
      (fun t ht => hv t (List.mem_append_left _ ht)) p r w he
    have hl : (p ++ records (pairs (fitChain e p.length c))).length
        = p.length + sizes (fitChain e p.length c) := by
      rw [List.length_append, length_records_pairs]
    obtain ⟨r2, h3, h4⟩ := ih (fun t ht => hv t (List.mem_append_right _ ht))
      (p ++ records (pairs (fitChain e p.length c))) r1 (w ++ fitChain e p.length c) (by
        rw [List.length_append, hl]
        rw [List.length_append] at he
        omega)
    have hfit : fit e p.length (c :: cs) = fitChain e p.length c
        ++ fit e (p.length + sizes (fitChain e p.length c)) cs := rfl
    refine ⟨r2, ?_, ?_⟩
    · show (writeChain e c ⟨p ++ r, p.length, w⟩).bind (writeTuples e cs) = _
      rw [h1, Option.bind_some, h3, hl, hfit, pairs_append, records_append]
      simp only [List.append_assoc]
    · rw [hl] at h4
      rw [hfit, sizes_append]
      omega

/-! ## the padding -/

theorem padCount_le (a : Nat) : padCount a ≤ if a % 4 = 0 then 0 else 8 - a % 4 := by
  unfold padCount ptrInt
  have hw : a % 4294967296 % 4 = a % 4 := Nat.mod_mod_of_dvd a (by decide)
  have hlt : a % 4294967296 < 4294967296 := Nat.mod_lt _ (by decide)
  generalize a % 4294967296 = w at hw hlt
  by_cases hl : w < 2147483648
  · rw [if_pos hl, Int.tmod_eq_emod_of_nonneg (by omega)]
    split <;> split <;> omega
  · rw [if_neg hl]
    have e : ((w : Int) - 4294967296).tmod 4 = -(((4294967296 - w : Nat) : Int) % 4) := by
      rw [show ((w : Int) - 4294967296) = -((4294967296 - w : Nat) : Int) by omega,
        Int.neg_tmod, Int.tmod_eq_emod_of_nonneg (by omega)]
    rw [e]
    split <;> split <;> omega

/-! ## the committed image -/

private theorem split4 (m : List UInt8) (h : 4 ≤ m.length) :
    ∃ a r, m = a ++ r ∧ a.length = 4 ∧ r.length = m.length - 4 :=
  ⟨m.take 4, m.drop 4, (List.take_append_drop 4 m).symm, by rw [List.length_take]; omega,
    List.length_drop⟩

/-- the header in memory -/
def headerBytes (big : Bool) (len cvi cr cn : UInt32) : List UInt8 :=
  put32 big nvramMagic ++ (put32 big len ++ (put32 big cvi ++ (put32 big cr ++ put32 big cn)))

theorem headerBytes_length (big : Bool) (len cvi cr cn : UInt32) :
    (headerBytes big len cvi cr cn).length = headerLen := by
  simp [headerBytes, headerLen]

/-- the tuples a commit writes -/
def fitting (h : Handle host) : List Tuple := fit (h.space - 2) headerLen h.table.chains

/-- how far the padding of a commit reaches, counted from the header -/
def padEnd (h : Handle host) : Nat :=
  headerLen + sizes (fitting h) + 1
    + padCount (h.addr + h.offset + (headerLen + sizes (fitting h) + 1))

/-- the first half of a commit; `a` is the old length word -/
theorem commitBody_eq (h : Handle host) (hv : ∀ t ∈ h.table.entries, t.2 ≠ none)
    (hS : headerLen ≤ h.space) (cvi cr cn : UInt32) :
    ∃ a r, a.length = 4 ∧ sizes (fitting h) + r.length = h.space - headerLen ∧
      commitBody h cvi cr cn = some ⟨(put32 host.big nvramMagic ++ (a ++ (put32 host.big cvi
          ++ (put32 host.big cr ++ put32 host.big cn))) ++ records (pairs (fitting h))) ++ r,
        headerLen + sizes (fitting h), fitting h⟩ := by
  have hlen := h.area_length
  have e20 : headerLen = 20 := rfl
  obtain ⟨a0, r0, e0, l0, k0⟩ := split4 h.area (by omega)
  obtain ⟨a1, r1, e1, l1, k1⟩ := split4 r0 (by omega)
  obtain ⟨a2, r2, e2, l2, k2⟩ := split4 r1 (by omega)
  obtain ⟨a3, r3, e3, l3, k3⟩ := split4 r2 (by omega)
  obtain ⟨a4, r4, e4, l4, k4⟩ := split4 r3 (by omega)
  have hp := put32_length host.big
  have s0 : store32 host.big h.area 0 nvramMagic = some _ :=
    store_split (a := []) (b := a0) (c := r0) e0 rfl (by rw [hp, l0])
  have s1 : store32 host.big ([] ++ (put32 host.big nvramMagic ++ r0)) 8 cvi = some _ :=
    store_split (a := put32 host.big nvramMagic ++ a1) (b := a2) (c := r2)
      (by rw [e1, e2]; simp) (by simp [l1]) (by rw [hp, l2])
  have s2 : store32 host.big (put32 host.big nvramMagic ++ a1 ++ (put32 host.big cvi ++ r2)) 12 cr
      = some _ :=
    store_split (a := put32 host.big nvramMagic ++ a1 ++ put32 host.big cvi) (b := a3) (c := r3)
      (by rw [e3]; simp) (by simp [l1]) (by rw [hp, l3])
  have s3 : store32 host.big (put32 host.big nvramMagic ++ a1 ++ put32 host.big cvi
      ++ (put32 host.big cr ++ r3)) 16 cn = some _ :=
    store_split (a := put32 host.big nvramMagic ++ a1 ++ put32 host.big cvi ++ put32 host.big cr)
      (b := a4) (c := r4) (by rw [e4]; simp) (by simp [l1]) (by rw [hp, l4])
  have hh : (put32 host.big nvramMagic ++ (a1 ++ (put32 host.big cvi ++ (put32 host.big cr
      ++ put32 host.big cn)))).length = headerLen := by simp [l1, headerLen]
  have s4 : store (put32 host.big nvramMagic ++ a1 ++ put32 host.big cvi ++ put32 host.big cr
      ++ (put32 host.big cn ++ r4)) headerLen (List.replicate (h.space - headerLen) 0xFF)
      = some _ :=
    store_behind (p := put32 host.big nvramMagic ++ (a1 ++ (put32 host.big cvi
      ++ (put32 host.big cr ++ put32 host.big cn)))) (r := r4) (by simp) hh
      (by rw [List.length_replicate]; omega)
  have hr4 : r4.drop (List.replicate (h.space - headerLen) (0xFF : UInt8)).length = [] :=
    List.drop_eq_nil_of_le (by rw [List.length_replicate]; omega)
  obtain ⟨r, hw, hr⟩ := writeTuples_eq (h.space - 2) h.table.chains hv
    (put32 host.big nvramMagic ++ (a1 ++ (put32 host.big cvi ++ (put32 host.big cr
      ++ put32 host.big cn)))) (List.replicate (h.space - headerLen) 0xFF) [] (by
        rw [List.length_append, hh, List.length_replicate]; omega)
  rw [hh, List.length_replicate] at hr
  refine ⟨a1, r, l1, hr, ?_⟩
  unfold commitBody
  simp only [Option.bind_eq_bind]
  rw [s0, Option.bind_some, s1, Option.bind_some, s2, Option.bind_some, s3, Option.bind_some, s4,
    Option.bind_some, hr4, List.append_nil]
  have hpl : (put32 host.big nvramMagic ++ (a1 ++ (put32 host.big cvi ++ (put32 host.big cr
      ++ put32 host.big cn))) ++ records (pairs (fitting h))).length
      = headerLen + sizes (fitting h) := by
    rw [List.length_append, hh, length_records_pairs]
  rw [hh] at hw
  rw [hw, List.nil_append]
  show some (⟨_, (_ ++ records (pairs (fitting h))).length, fitting h⟩ : Out) = _
  rw [hpl]
  rfl

/-- the CRC8 a commit stores: the scratch header, then the data up to the length word -/
def imageCrc (big : Bool) (cvi cr cn : UInt32) (data : List UInt8) : UInt8 :=
  hndcrc8 data (hndcrc8 ((crcHeader big cvi cr cn).drop crcStartPosition) 0xff)

/-- the header words of a commit of `h` with `z` behind the empty record -/
def HeaderWords (h : Handle host) (z : List UInt8) (cvi cr cn : UInt32) : Prop :=
  ∃ w, sdramWords h = (w, cr, cn) ∧
    cvi = w ||| (imageCrc host.big w cr cn ((records (pairs (fitting h)) ++ 0 :: z).take
      (roundup4 (headerLen + sizes (fitting h) + 2) - headerLen))).toUInt32

/-- the second half of a commit -/
theorem commitEnd_eq (h : Handle host) (cvi cr cn : UInt32)
    (ps : List (CStr × CStr)) (ts : List Tuple) (a r : List UInt8) (ha : a.length = 4)
    (hr : headerLen + ((records ps).length + r.length) = h.space)
    (hpad : headerLen + (records ps).length + 1
      + padCount (h.addr + h.offset + (headerLen + (records ps).length + 1)) ≤ h.space)
    (hlen : roundup4 (headerLen + (records ps).length + 2) ≤ h.space) :
    ∃ z, (records ps).length + (z.length + 1) + headerLen = h.space ∧
      commitEnd h cvi cr cn ⟨(put32 host.big nvramMagic ++ (a ++ (put32 host.big cvi
          ++ (put32 host.big cr ++ put32 host.big cn))) ++ records ps) ++ r,
        headerLen + (records ps).length, ts⟩
      = some ⟨headerBytes host.big (UInt32.ofNat (roundup4 (headerLen + (records ps).length + 2)))
          (cvi ||| (imageCrc host.big cvi cr cn ((records ps ++ 0 :: z).take
            (roundup4 (headerLen + (records ps).length + 2) - headerLen))).toUInt32) cr cn
          ++ (records ps ++ 0 :: z), headerLen + (records ps).length + 2, ts⟩ := by
  have hp := put32_length host.big
  have e20 : headerLen = 20 := rfl
  have hh : (put32 host.big nvramMagic ++ (a ++ (put32 host.big cvi ++ (put32 host.big cr
      ++ put32 host.big cn)))).length = headerLen := by simp [ha, headerLen]
  generalize hn : padCount (h.addr + h.offset + (headerLen + (records ps).length + 1)) = n at hpad
  have s1 : store ((put32 host.big nvramMagic ++ (a ++ (put32 host.big cvi ++ (put32 host.big cr
      ++ put32 host.big cn))) ++ records ps) ++ r) (headerLen + (records ps).length) [0]
      = some _ :=
    store_behind rfl (by rw [List.length_append, hh]) (by simp; omega)
  have s2 : store ((put32 host.big nvramMagic ++ (a ++ (put32 host.big cvi ++ (put32 host.big cr
      ++ put32 host.big cn))) ++ records ps) ++ ([0] ++ r.drop ([0] : List UInt8).length))
      (headerLen + (records ps).length + 1) (List.replicate n 0) = some _ :=
    store_behind (p := (put32 host.big nvramMagic ++ (a ++ (put32 host.big cvi ++ (put32 host.big cr
      ++ put32 host.big cn))) ++ records ps) ++ [0]) (r := r.drop 1) (by simp)
      (by rw [List.length_append, List.length_append, hh]; rfl)
      (by rw [List.length_replicate, List.length_drop]; omega)
  rw [List.length_replicate, List.drop_drop] at s2
  have s3 : ∀ w : UInt32, store32 host.big ((put32 host.big nvramMagic ++ (a ++ (put32 host.big cvi
      ++ (put32 host.big cr ++ put32 host.big cn))) ++ records ps) ++ [0]
      ++ (List.replicate n 0 ++ r.drop (1 + n))) 4 w = some _ := fun w =>
    store_split (a := put32 host.big nvramMagic) (b := a) (c := put32 host.big cvi
      ++ (put32 host.big cr ++ (put32 host.big cn ++ (records ps ++ 0 :: (List.replicate n 0
      ++ r.drop (1 + n)))))) (by simp) (hp _) (by rw [hp, ha])
  have s4 : ∀ w w' : UInt32, store32 host.big (put32 host.big nvramMagic ++ (put32 host.big w
      ++ (put32 host.big cvi ++ (put32 host.big cr ++ (put32 host.big cn ++ (records ps
      ++ 0 :: (List.replicate n 0 ++ r.drop (1 + n)))))))) 8 w' = some _ := fun w w' =>
    store_split (a := put32 host.big nvramMagic ++ put32 host.big w) (b := put32 host.big cvi)
      (c := put32 host.big cr ++ (put32 host.big cn ++ (records ps ++ 0 :: (List.replicate n 0
      ++ r.drop (1 + n))))) (by simp) (by simp) (by rw [hp, hp])
  have hz : (records ps).length + ((List.replicate n 0 ++ r.drop (1 + n)).length + 1) + headerLen
      = h.space := by
    rw [List.length_append, List.length_replicate, List.length_drop]
    omega
  have hd : load (put32 host.big nvramMagic ++ (put32 host.big
      (UInt32.ofNat (roundup4 (headerLen + (records ps).length + 2))) ++ (put32 host.big cvi
      ++ (put32 host.big cr ++ (put32 host.big cn ++ (records ps ++ 0 :: (List.replicate n 0
      ++ r.drop (1 + n)))))))) headerLen (roundup4 (headerLen + (records ps).length + 2) - headerLen)
      = some ((records ps ++ 0 :: (List.replicate n 0 ++ r.drop (1 + n))).take
        (roundup4 (headerLen + (records ps).length + 2) - headerLen)) := by
    have hh' := headerBytes_length host.big
      (UInt32.ofNat (roundup4 (headerLen + (records ps).length + 2))) cvi cr cn
    have : headerLen ≤ roundup4 (headerLen + (records ps).length + 2) := by
      unfold roundup4
      omega
    rw [List.length_append] at hz
    refine load_split (a := headerBytes host.big _ cvi cr cn) (c := (records ps ++ 0 ::
      (List.replicate n 0 ++ r.drop (1 + n))).drop
        (roundup4 (headerLen + (records ps).length + 2) - headerLen)) ?_ hh' ?_
    · rw [List.take_append_drop]
      simp [headerBytes]
    · rw [List.length_take]
      simp only [List.length_append, List.length_cons]
      omega
  refine ⟨_, hz, ?_⟩
  unfold commitEnd
  simp only [Option.bind_eq_bind]
  rw [s1, Option.bind_some, hn, s2, Option.bind_some, s3, Option.bind_some, hd, Option.bind_some,
    s4, Option.bind_some]
  simp [headerBytes, imageCrc]

/-- **The committed image**: header, the records of the tuples that fit, an empty record. -/
theorem commitImage_some (h : Handle host) (hv : ∀ t ∈ h.table.entries, t.2 ≠ none)
    (hS : headerLen ≤ h.space) (hpad : padEnd h ≤ h.space)
    (hlen : roundup4 (headerLen + sizes (fitting h) + 2) ≤ h.space) :
    ∃ o z cvi cr cn, commitImage h = some o ∧ o.written = fitting h ∧
      o.m = headerBytes host.big (UInt32.ofNat (roundup4 (headerLen + sizes (fitting h) + 2)))
        cvi cr cn ++ (records (pairs (fitting h)) ++ 0 :: z) ∧ o.m.length = h.space ∧
      HeaderWords h z cvi cr cn := by
  have hsz := length_records_pairs (fitting h)
  generalize hw : sdramWords h = w
  obtain ⟨cvi, cr, cn⟩ := w
  obtain ⟨a, r, ha, hr, hb⟩ := commitBody_eq h hv hS cvi cr cn
  obtain ⟨z, hz, he⟩ := commitEnd_eq h cvi cr cn (pairs (fitting h)) (fitting h) a r ha
    (by omega) (by rw [hsz]; exact hpad) (by rw [hsz]; exact hlen)
  rw [hsz] at he
  have himg : commitImage h = (commitBody h cvi cr cn).bind (commitEnd h cvi cr cn) := by
    unfold commitImage
    rw [hw]
    rfl
  rw [hb, Option.bind_some, he] at himg
  refine ⟨_, z, _, cr, cn, himg, rfl, rfl, ?_, cvi, hw, rfl⟩
  rw [List.length_append, headerBytes_length, List.length_append, List.length_cons]
  omega

/-- a commit whose padding leaves the mapping -/
theorem commitImage_none (h : Handle host) (hv : ∀ t ∈ h.table.entries, t.2 ≠ none)
    (hS : headerLen ≤ h.space) (hpad : ¬ padEnd h ≤ h.space) : commitImage h = none := by
  have hsz := length_records_pairs (fitting h)
  generalize hw : sdramWords h = w
  obtain ⟨cvi, cr, cn⟩ := w
  obtain ⟨a, r, ha, hr, hb⟩ := commitBody_eq h hv hS cvi cr cn
  unfold commitImage
  rw [hw]
  show (commitBody h cvi cr cn).bind (commitEnd h cvi cr cn) = none
  rw [hb, Option.bind_some]
  unfold commitEnd
  simp only [Option.bind_eq_bind, Option.bind_eq_none_iff]
  intro m1 h1 m2 h2
  exfalso
  obtain ⟨b1, rfl⟩ := store_eq_some.mp h1
  obtain ⟨b2, -⟩ := store_eq_some.mp h2
  rw [poke_length _ _ _ b1, List.length_replicate] at b2
  apply hpad
  have hl : ((put32 host.big nvramMagic ++ (a ++ (put32 host.big cvi ++ (put32 host.big cr
      ++ put32 host.big cn))) ++ records (pairs (fitting h))) ++ r).length = h.space := by
    have e20 : headerLen = 20 := rfl
    simp only [List.length_append, put32_length, ha, hsz]
    omega
  rw [hl] at b2
  exact b2

/-- without room for the header there is no commit -/
theorem commitImage_small (h : Handle host) (hS : h.space < headerLen) : commitImage h = none := by
  have e20 : headerLen = 20 := rfl
  have hlen := h.area_length
  unfold commitImage commitBody
  simp only [Option.bind_eq_bind, Option.bind_eq_none_iff, Option.bind_eq_some_iff]
  rintro o ⟨m1, h1, m2, h2, m3, h3, m4, h4, -⟩
  exfalso
  obtain ⟨b4, -⟩ := store_eq_some.mp h4
  rw [store_length h3, store_length h2, store_length h1, put32_length] at b4
  omega

end Nvram
