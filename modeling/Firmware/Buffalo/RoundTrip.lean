import Firmware.Buffalo.Crypt

/-!
# buffalo-enc: decryption undoes encryption

* `crypt`                the cipher on a list of bytes, its own inverse;
* `bcryptProcess_eq`     the loop writes it, as long as it does not write ahead of what it reads;
* `encryptBuf_eq`        the encrypted buffer;
* `decrypt_encrypt`      all fields and the data come back.
-/

set_option linter.unusedVariables false

namespace Buffalo
open Img Word

variable {malloc : Nat → Bool}

/-! ## the cipher -/

def keystream (c : Ctx) : Nat → List UInt8
  | 0 => []
  | n + 1 => c.next.2 :: keystream c.next.1 n

theorem keystream_length : ∀ (c : Ctx) (n : Nat), (keystream c n).length = n
  | _, 0 => rfl
  | c, n + 1 => by
    unfold keystream
    rw [List.length_cons, keystream_length]

def xors (a b : List UInt8) : List UInt8 := List.zipWith (· ^^^ ·) a b

theorem xors_xors : ∀ {a b : List UInt8}, a.length = b.length → xors (xors a b) b = a
  | [], [], _ => rfl
  | x :: a, y :: b, h => by
    show (x ^^^ y ^^^ y) :: xors (xors a b) b = x :: a
    rw [xors_xors (Nat.succ.inj h), UInt8.xor_assoc, UInt8.xor_self, UInt8.xor_zero]

/-- the key stream for `n` bytes -/
def stream (seed : UInt8) (key : CStr) (longstate : Bool) (n : Nat) : List UInt8 :=
  keystream (bcryptInit (seed :: key.bytes) (if longstate then n else bcryptDefaultStateLen)) n

/-- the cipher on `l` -/
def crypt (seed : UInt8) (key : CStr) (longstate : Bool) (l : List UInt8) : List UInt8 :=
  xors l (stream seed key longstate l.length)

theorem crypt_length (seed : UInt8) (key : CStr) (longstate : Bool) (l : List UInt8) :
    (crypt seed key longstate l).length = l.length := by
  unfold crypt xors stream
  rw [List.length_zipWith, keystream_length, Nat.min_self]

theorem crypt_crypt (seed : UInt8) (key : CStr) (longstate : Bool) (l : List UInt8) :
    crypt seed key longstate (crypt seed key longstate l) = l := by
  show xors (crypt seed key longstate l)
    (stream seed key longstate (crypt seed key longstate l).length) = l
  rw [crypt_length]
  exact xors_xors (keystream_length _ _).symm

/-- a string with its NUL -/
theorem crypt_field_length (seed : UInt8) (key : CStr) (longstate : Bool) (s : CStr) :
    (crypt seed key longstate (s.bytes ++ [0])).length = s.length + 1 := by
  rw [crypt_length, List.length_append]
  rfl

/-! ## the loop -/

/-- **The loop** writes behind what it has read: the data may be decrypted in place. -/
theorem bcryptProcess_eq : ∀ (len : Nat) (c : Ctx) (mem : List UInt8) (src dst : Nat), dst ≤ src →
    src + len ≤ mem.length → bcryptProcess len c mem src dst
      = some (poke mem dst (xors (slice mem src len) (keystream c len)))
  | 0, c, mem, src, dst, _, _ => by
    show some mem = some (poke mem dst (xors (slice mem src 0) []))
    rw [show xors (slice mem src 0) [] = [] from List.zipWith_nil_right, poke_nil]
  | len + 1, c, mem, src, dst, hle, hlen => by
    obtain ⟨b, hb⟩ : ∃ b, mem[src]? = some b := ⟨_, List.getElem?_eq_getElem (by omega)⟩
    have hs : store mem dst [b ^^^ c.next.2] = some (poke mem dst [b ^^^ c.next.2]) :=
      store_eq_some.mpr ⟨by simp; omega, rfl⟩
    have hl := store_length hs
    have hsl : slice mem src (len + 1) = b :: slice mem (src + 1) len := by
      unfold slice
      rw [List.drop_eq_getElem_cons (by omega), List.take_succ_cons]
      congr 1
      rw [List.getElem?_eq_getElem (by omega)] at hb
      exact Option.some.inj hb
    unfold bcryptProcess
    rw [hb, Option.bind_some, hs, Option.bind_some,
      bcryptProcess_eq len _ _ (src + 1) (dst + 1) (by omega) (by omega),
      slice_poke_after _ _ _ _ _ (by simp; omega) (by simp; omega), poke_cons _ _ _ (by omega), hsl]
    rfl

/-! ## buffers -/

section
variable {seed : UInt8} {key : CStr} {longstate : Bool} (hkey : key.length ≤ 254)
  (hm : ∀ n, 0 < n → n < 4294967296 → malloc n = true)
include hkey hm

theorem bcryptBuf_eq {mem : List UInt8} {src dst len : Nat} (hle : dst ≤ src)
    (hlen : src + len ≤ mem.length) (h0 : 0 < len) (h32 : len < 4294967296) :
    bcryptBuf malloc seed key mem src dst len longstate
      = .ok (poke mem dst (crypt seed key longstate (slice mem src len))) := by
  have hmalloc : malloc (if longstate then len else bcryptDefaultStateLen) = true := by
    split
    · exact hm _ h0 h32
    · exact hm _ (by decide) (by decide)
  unfold bcryptBuf
  simp only [hmalloc, bcryptProcess_eq len _ mem src dst hle hlen]
  rw [if_neg (by unfold bcryptMaxKeylen; omega)]
  unfold crypt stream
  rw [slice_length _ _ _ hlen]
  rfl

/-- in place -/
theorem bcryptBuf_split {a b c mem : List UInt8} {p : Nat} (hmem : mem = a ++ (b ++ c))
    (ha : a.length = p) (h0 : 0 < b.length) (h32 : b.length < 4294967296) :
    bcryptBuf malloc seed key mem p p b.length longstate
      = .ok (a ++ (crypt seed key longstate b ++ c)) := by
  rw [bcryptBuf_eq hkey hm (Nat.le_refl _) (by rw [hmem]; simp; omega) h0 h32,
    slice_of_split hmem ha rfl, poke_of_split hmem ha (crypt_length _ _ _ _)]

theorem putField_eq {ep : EncParam} {a r mem : List UInt8} {p : Nat} {s : CStr}
    (hk : ep.key = key) (hl : ep.longstate = longstate) (hmem : mem = a ++ r) (ha : a.length = p)
    (hr : 4 + (s.length + 1) ≤ r.length) (hs : s.length + 1 < 4294967296) :
    putField malloc ep seed mem p s = .ok (a ++ (put32 true (UInt32.ofNat (s.length + 1)) ++
      (crypt seed key longstate (s.bytes ++ [0]) ++ r.drop (4 + (s.length + 1)))),
      (crypt seed key longstate (s.bytes ++ [0])).getD 0 0, p + 4 + (s.length + 1)) := by
  have hlen : (s.bytes ++ [0]).length = s.length + 1 := List.length_append
  have h1 := @store_behind _ a r mem (put32 true (UInt32.ofNat (s.length + 1))) p hmem ha
    (by rw [put32_length]; omega)
  rw [put32_length, ← List.append_assoc] at h1
  have ha4 : (a ++ put32 true (UInt32.ofNat (s.length + 1))).length = p + 4 := by
    rw [List.length_append, put32_length, ha]
  have h2 := @store_behind _ _ (r.drop 4) _ (s.bytes ++ [0]) (p + 4) rfl ha4
    (by rw [hlen, List.length_drop]; omega)
  rw [hlen, List.drop_drop] at h2
  have h3 := @bcryptBuf_split malloc seed key longstate hkey hm _ (s.bytes ++ [0])
    (r.drop (4 + (s.length + 1))) _ (p + 4) rfl ha4 (by rw [hlen]; omega) (by rw [hlen]; omega)
  rw [hlen] at h3
  have hcl := crypt_length seed key longstate (s.bytes ++ [0])
  have h4 : ∀ c, ((a ++ put32 true (UInt32.ofNat (s.length + 1))) ++
      (crypt seed key longstate (s.bytes ++ [0]) ++ c))[p + 4]?
      = some ((crypt seed key longstate (s.bytes ++ [0])).getD 0 0) := by
    intro c
    rw [List.getElem?_append_right (by omega), ha4, Nat.sub_self,
      List.getElem?_append_left (by omega), List.getD_eq_getElem?_getD,
      List.getElem?_eq_getElem (by omega)]
    rfl
  unfold putField
  rw [hk, hl]
  simp only [h1, h2, safe, bind, Except.bind, h3, h4]
  rw [List.append_assoc]

/-! ## the image -/

/-- the header, encrypted with `key` -/
def header (key : CStr) (longstate : Bool) (seed : UInt8) (magic product version : CStr)
    (datalen : UInt32) : List UInt8 :=
  let cp := crypt seed key longstate (product.bytes ++ [0])
  let cv := crypt (cp.getD 0 0) key longstate (version.bytes ++ [0])
  (magic.bytes ++ [0]) ++ ([seed] ++ (put32 true (UInt32.ofNat (product.length + 1)) ++ (cp ++
    (put32 true (UInt32.ofNat (version.length + 1)) ++ (cv ++ put32 true datalen)))))

/-- the first byte of the encrypted version, the seed for the data -/
def dataSeed (key : CStr) (longstate : Bool) (seed : UInt8) (product version : CStr) : UInt8 :=
  (crypt ((crypt seed key longstate (product.bytes ++ [0])).getD 0 0) key longstate
    (version.bytes ++ [0])).getD 0 0

omit hkey hm in
theorem header_length {magic product version : CStr} {datalen : UInt32} (h5 : magic.length = 5) :
    (header key longstate seed magic product version datalen).length
      = encComputeHeaderLen product version := by
  have h : magic.bytes.length = 5 := h5
  have hp : product.bytes.length = product.length := rfl
  have hv : version.bytes.length = version.length := rfl
  unfold header encComputeHeaderLen encMagicLen
  simp only [List.length_append, crypt_length, put32_length, List.length_singleton, h, hp, hv]
  omega

theorem encryptBuf_eq {ep : EncParam} {magic product version : CStr} {h data c4 tail : List UInt8}
    (hk : ep.key = key) (hl : ep.longstate = longstate) (hs : ep.seed = seed)
    (hmagic : CStr.cstr ep.magic = some magic) (h5 : magic.length = 5)
    (hproduct : CStr.cstr ep.product = some product) (hp : product.length ≤ 31)
    (hversion : CStr.cstr ep.version = some version) (hv : version.length ≤ 7)
    (hh : h.length = encComputeHeaderLen product version) (hc4 : c4.length = 4)
    (hd : data.length = ep.datalen.toNat) (h0 : 0 < data.length) :
    encryptBuf malloc ep (h ++ (data ++ (c4 ++ tail))) 0 h.length
      = .ok (header key longstate seed magic product version ep.datalen ++
        (crypt (dataSeed key longstate seed product version) key longstate data ++
          (put32 true ep.csum ++ tail))) := by
  have hb : magic.bytes.length = 5 := h5
  have hhdr : encComputeHeaderLen product version = 21 + product.length + version.length := by
    unfold encComputeHeaderLen encMagicLen
    omega
  have hlen := ep.datalen.toNat_lt
  generalize hmem : h ++ (data ++ (c4 ++ tail)) = mem
  have hml : h.length + 4 ≤ mem.length := by
    rw [← hmem]
    simp only [List.length_append]
    omega
  have s1 := @store_behind _ [] mem mem (magic.bytes ++ [0]) 0 rfl rfl (by simp [hb]; omega)
  have s2 := @store_behind _ (magic.bytes ++ [0]) (mem.drop 6) _ [seed] 6 rfl (by simp [hb])
    (by simp; omega)
  rw [List.drop_drop] at s2
  have f1 := @putField_eq malloc seed key longstate hkey hm ep ((magic.bytes ++ [0]) ++ [seed])
    (mem.drop 7) _ 7 product hk hl rfl (by simp [hb]) (by rw [List.length_drop]; omega) (by omega)
  rw [List.drop_drop] at f1
  have hcpl := crypt_field_length seed key longstate product
  generalize hcp : crypt seed key longstate (product.bytes ++ [0]) = cp at f1 hcpl
  have f2 := @putField_eq malloc (cp.getD 0 0) key longstate hkey hm ep ((magic.bytes ++ [0]) ++
    ([seed] ++ (put32 true (UInt32.ofNat (product.length + 1)) ++ cp)))
    (mem.drop (7 + (4 + (product.length + 1)))) _ (7 + 4 + (product.length + 1)) version hk hl rfl
    (by simp only [List.length_append, put32_length, hcpl, hb, List.length_singleton]; omega)
    (by rw [List.length_drop]; omega) (by omega)
  rw [List.drop_drop] at f2
  have hcvl := crypt_field_length (cp.getD 0 0) key longstate version
  generalize hcv : crypt (cp.getD 0 0) key longstate (version.bytes ++ [0]) = cv at f2 hcvl
  have s3 := @store_behind _ ((magic.bytes ++ [0]) ++ ([seed] ++ (put32 true (UInt32.ofNat
    (product.length + 1)) ++ (cp ++ (put32 true (UInt32.ofNat (version.length + 1)) ++ cv)))))
    (mem.drop (7 + (4 + (product.length + 1)) + (4 + (version.length + 1)))) _
    (put32 true ep.datalen) (7 + 4 + (product.length + 1) + 4 + (version.length + 1)) rfl
    (by simp only [List.length_append, put32_length, hcpl, hcvl, hb, List.length_singleton]; omega)
    (by rw [put32_length, List.length_drop]; omega)
  have hrest : mem.drop (7 + (4 + (product.length + 1)) + (4 + (version.length + 1)) + 4)
      = data ++ (c4 ++ tail) := by
    rw [← hmem]
    exact List.drop_left' (by omega)
  rw [put32_length, List.drop_drop, hrest] at s3
  have hheader : header key longstate seed magic product version ep.datalen
      = (magic.bytes ++ [0]) ++ ([seed] ++ (put32 true (UInt32.ofNat (product.length + 1)) ++ (cp ++
        (put32 true (UInt32.ofNat (version.length + 1)) ++ (cv ++ put32 true ep.datalen))))) := by
    unfold header
    simp only [hcp, hcv]
  have hheaderl := @header_length seed key longstate magic product version ep.datalen h5
  have hseed : dataSeed key longstate seed product version = cv.getD 0 0 := by
    unfold dataSeed
    rw [hcp, hcv]
  have b1 := @bcryptBuf_split malloc (cv.getD 0 0) key longstate hkey hm
    (header key longstate seed magic product version ep.datalen) data (c4 ++ tail) _ h.length rfl
    (by omega) h0 (by omega)
  have hcd := crypt_length (cv.getD 0 0) key longstate data
  have s4 := @store_split _ (header key longstate seed magic product version ep.datalen ++
    crypt (cv.getD 0 0) key longstate data) c4 tail (put32 true ep.csum) _
    (h.length + ep.datalen.toNat) rfl (by rw [List.length_append]; omega)
    (by rw [put32_length, hc4])
  simp only [hheader, List.append_assoc, List.nil_append, List.length_append, hb,
    List.length_singleton, Nat.reduceAdd, hd] at s1 s2 f1 f2 s3 b1 s4
  unfold encryptBuf
  rw [hmagic, hproduct, hversion, hk, hl, hs, hseed, hheader]
  simp only [safe, bind, Except.bind, h5, Nat.reduceAdd, List.append_assoc, s1, s2, f1, f2, s3, b1,
    s4]

/-! ## decryption -/

omit hkey hm in
theorem take_drop {b c mem : List UInt8} {p remain len : Nat} (h : mem.drop p = b ++ c)
    (hb : b.length = len) (h0 : 0 < len) (hle : len ≤ remain) :
    Cur.take ⟨p, remain⟩ mem len = .ok (b, ⟨p + len, remain - len⟩) ∧ mem.drop (p + len) = c := by
  have hl := congrArg List.length h
  rw [List.length_drop, List.length_append] at hl
  have hload : load mem p len = some b := by
    refine load_eq_some.mpr ⟨by omega, ?_⟩
    unfold slice
    rw [h]
    exact (List.take_left' hb).symm
  refine ⟨?_, ?_⟩
  · unfold Cur.take
    simp only [hload, decide_eq_true hle, goto, safe, bind, Except.bind, if_true]
  · rw [← List.drop_drop, h]
    exact List.drop_left' hb

/-- an encrypted string is copied to the front of an array and decrypted there -/
theorem decrypt_field {s : CStr} {c : List UInt8} (arr : List UInt8)
    (hc : crypt seed key longstate (s.bytes ++ [0]) = c) (harr : s.length + 1 ≤ arr.length)
    (h32 : s.length + 1 < 4294967296) :
    store arr 0 c = some (c ++ arr.drop (s.length + 1)) ∧
      bcryptBuf malloc seed key (c ++ arr.drop (s.length + 1)) 0 0 (s.length + 1) longstate
        = .ok (s.bytes ++ [0] ++ arr.drop (s.length + 1)) ∧
      (c ++ arr.drop (s.length + 1)).getD 0 0 = c.getD 0 0 := by
  have hl : c.length = s.length + 1 := by
    rw [← hc]
    exact crypt_field_length ..
  have hst := @store_behind _ [] arr arr c 0 rfl rfl (by omega)
  have hbuf := @bcryptBuf_split malloc seed key longstate hkey hm [] c (arr.drop (s.length + 1)) _ 0
    rfl rfl (by omega) (by omega)
  rw [← hc, crypt_crypt, hc] at hbuf
  simp only [List.nil_append, hl] at hst hbuf
  refine ⟨hst, hbuf, ?_⟩
  rw [List.getD_eq_getElem?_getD, List.getElem?_append_left (by omega), List.getD_eq_getElem?_getD]

/-- the arrays of the header, put into the fields of `ep` -/
theorem decryptBuf_eq {ep : EncParam} {magic product version : CStr} {data tail : List UInt8}
    {datalen csum : UInt32} (hk : ep.key = key) (hl : ep.longstate = longstate)
    (hep : ep.product.length = 32) (hev : ep.version.length = 8) (h5 : magic.length = 5)
    (hmagic : checkMagic (magic.bytes ++ [0]) = true) (hp : product.length ≤ 31)
    (hv : version.length ≤ 7) (hd : data.length = datalen.toNat) (h0 : 0 < data.length)
    (hcsum : csum = buffaloCsum datalen data) {image : List UInt8}
    (himage : image = header key longstate seed magic product version datalen ++
        (crypt (dataSeed key longstate seed product version) key longstate data ++
          (put32 true csum ++ tail))) :
    decryptBuf malloc ep image 0 image.length
      = .ok (⟨key, magic.bytes ++ [0], product.bytes ++ [0] ++ ep.product.drop (product.length + 1),
        version.bytes ++ [0] ++ ep.version.drop (version.length + 1), seed, longstate, datalen,
        csum⟩, poke image 0 data) := by
  have hb : magic.bytes.length = 5 := h5
  have hlen := datalen.toNat_lt
  have hcpl := crypt_field_length seed key longstate product
  generalize hcp : crypt seed key longstate (product.bytes ++ [0]) = cp at hcpl
  have hcvl := crypt_field_length (cp.getD 0 0) key longstate version
  generalize hcv : crypt (cp.getD 0 0) key longstate (version.bytes ++ [0]) = cv at hcvl
  have hseed : dataSeed key longstate seed product version = cv.getD 0 0 := by
    unfold dataSeed
    rw [hcp, hcv]
  rw [hseed] at himage
  generalize hcd : crypt (cv.getD 0 0) key longstate data = cd at himage
  have hcdl : cd.length = datalen.toNat := by rw [← hcd, crypt_length, hd]
  have hmem : image = (magic.bytes ++ [0]) ++ ([seed] ++ (put32 true (UInt32.ofNat
      (product.length + 1)) ++ (cp ++ (put32 true (UInt32.ofNat (version.length + 1)) ++ (cv ++
        (put32 true datalen ++ (cd ++ (put32 true csum ++ tail)))))))) := by
    rw [himage]
    unfold header
    simp only [hcp, hcv, List.append_assoc]
  have hil : image.length = 25 + product.length + version.length + datalen.toNat + tail.length := by
    rw [hmem]
    simp only [List.length_append, put32_length, hcpl, hcvl, hcdl, hb, List.length_singleton]
    omega
  generalize hrem : image.length = remain at hil
  obtain ⟨t1, d1⟩ := @take_drop (magic.bytes ++ [0]) _ image 0 remain 6 hmem (by simp [hb])
    (by omega) (by omega)
  obtain ⟨t2, d2⟩ := @take_drop _ _ _ _ (remain - 6) 1 d1 rfl (by omega) (by omega)
  obtain ⟨t3, d3⟩ := @take_drop _ _ _ _ (remain - 6 - 1) 4 d2 (put32_length _ _) (by omega)
    (by omega)
  obtain ⟨t4, d4⟩ := @take_drop _ _ _ _ (remain - 6 - 1 - 4) _ d3 hcpl (by omega) (by omega)
  generalize hr4 : remain - 6 - 1 - 4 - (product.length + 1) = r4 at t4
  obtain ⟨t5, d5⟩ := @take_drop _ _ _ _ r4 4 d4 (put32_length _ _) (by omega) (by omega)
  obtain ⟨t6, d6⟩ := @take_drop _ _ _ _ (r4 - 4) _ d5 hcvl (by omega) (by omega)
  generalize hr6 : r4 - 4 - (version.length + 1) = r6 at t6
  obtain ⟨t7, d7⟩ := @take_drop _ _ _ _ r6 4 d6 (put32_length _ _) (by omega) (by omega)
  generalize hp7 : 0 + 6 + 1 + 4 + (product.length + 1) + 4 + (version.length + 1) + 4 = p7 at t7 d7
  have hslice : slice image p7 datalen.toNat = cd := by
    unfold slice
    rw [d7]
    exact List.take_left' hcdl
  have b1 := @bcryptBuf_eq malloc (cv.getD 0 0) key longstate hkey hm image p7 0 datalen.toNat
    (by omega) (by omega) (by omega) hlen
  rw [hslice, ← hcd, crypt_crypt] at b1
  have d8 : (poke image 0 data).drop (p7 + datalen.toNat) = put32 true csum ++ tail := by
    rw [drop_poke _ _ _ _ (by omega) (by omega), ← List.drop_drop, d7]
    exact List.drop_left' hcdl
  obtain ⟨t8, -⟩ := @take_drop _ _ _ _ (r6 - 4 - datalen.toNat) 4 d8 (put32_length _ _) (by omega)
    (by omega)
  have hdata : slice (poke image 0 data) 0 datalen.toNat = data := by
    rw [← hd]
    exact slice_poke_self _ _ _ (by omega)
  obtain ⟨sp, bp, fp⟩ := decrypt_field hkey hm ep.product hcp (by omega) (by omega)
  obtain ⟨sv, bv, fv⟩ := decrypt_field hkey hm ep.version hcv (by omega) (by omega)
  unfold decryptBuf encMagicLen encProductLen encVersionLen
  rw [hk, hl]
  simp only [t1, t2, t3, t4, t5, t6, t7, sp, sv, hmagic, goto, safe, bind, Except.bind, if_true,
    get32_put32, UInt32.toNat_ofNat_of_lt' (show product.length + 1 < 4294967296 by omega),
    UInt32.toNat_ofNat_of_lt' (show version.length + 1 < 4294967296 by omega),
    decide_eq_true (show product.length + 1 ≤ 32 by omega),
    decide_eq_true (show version.length + 1 ≤ 8 by omega),
    decide_eq_true (show datalen.toNat ≤ r6 - 4 by omega), fv, fp, b1, t8, hdata, ← hcsum,
    decide_true, List.getD_cons_zero, bv, bp]

end

/-! ## round trip -/

/-- a zeroed array with a string in it -/
def field (n : Nat) (s : CStr) : List UInt8 := s.bytes ++ List.replicate (n - s.length) 0

theorem cstr_field {n : Nat} {s : CStr} (h : s.length < n) : CStr.cstr (field n s) = some s := by
  unfold field
  rw [show n - s.length = (n - s.length - 1) + 1 by omega, List.replicate_succ]
  exact CStr.cstr_append s _

/-- the parameters that `encrypt_file` sets up -/
def encParam (key magic product version : CStr) (seed : UInt8) (longstate : Bool) (datalen : UInt32)
    (data : List UInt8) : EncParam :=
  ⟨key, field encMagicLen magic, field encProductLen product, field encVersionLen version, seed,
    longstate, datalen, buffaloCsum datalen data⟩

/-- **Decryption undoes encryption**: the buffer holds the header, the data, the checksum and
padding, `h`, `c4` and `tail` before the encryption. -/
theorem decrypt_encrypt (hm : ∀ n, 0 < n → n < 4294967296 → malloc n = true)
    {key magic product version : CStr} {seed : UInt8} {longstate : Bool} {datalen : UInt32}
    {data h c4 tail : List UInt8} {ep : EncParam} (hkey : key.length ≤ 254)
    (hmagic : magic.bytes = CStr.ascii ['s', 't', 'a', 'r', 't'] ∨
      magic.bytes = CStr.ascii ['a', 's', 'a', 'r', '1'])
    (hp : product.length ≤ 31) (hv : version.length ≤ 7) (hd : data.length = datalen.toNat)
    (h0 : 1 ≤ data.length) (hh : h.length = encComputeHeaderLen product version)
    (hc4 : c4.length = 4) (hk : ep.key = key) (hl : ep.longstate = longstate)
    (hep : ep.product.length = 32) (hev : ep.version.length = 8) :
    ∃ image ep' mem, encryptBuf malloc (encParam key magic product version seed longstate datalen data)
        (h ++ (data ++ (c4 ++ tail))) 0 h.length = .ok image ∧
      decryptBuf malloc ep image 0 image.length = .ok (ep', mem) ∧ ep'.seed = seed ∧
      CStr.cstr ep'.product = some product ∧ CStr.cstr ep'.version = some version ∧
      ep'.datalen = datalen ∧ ep'.csum = buffaloCsum datalen data ∧ mem.take data.length = data := by
  have h5 : magic.length = 5 := by
    unfold CStr.length
    rcases hmagic with h | h <;> rw [h] <;> rfl
  have hcheck : checkMagic (magic.bytes ++ [0]) = true := by
    rcases hmagic with h | h <;> rw [h] <;> decide
  have e := @encryptBuf_eq malloc seed key longstate hkey hm
    (encParam key magic product version seed longstate datalen data) magic product version h data c4
    tail rfl rfl rfl (cstr_field (by unfold encMagicLen; omega)) h5
    (cstr_field (by unfold encProductLen; omega)) hp (cstr_field (by unfold encVersionLen; omega)) hv
    hh hc4 hd h0
  have d := @decryptBuf_eq malloc seed key longstate hkey hm ep magic product version data tail
    datalen (buffaloCsum datalen data) hk hl hep hev h5 hcheck hp hv hd h0 rfl _ rfl
  refine ⟨_, _, _, e, d, rfl, ?_, ?_, rfl, rfl, ?_⟩
  · show CStr.cstr (product.bytes ++ [0] ++ _) = _
    rw [List.append_assoc]
    exact CStr.cstr_append product _
  · show CStr.cstr (version.bytes ++ [0] ++ _) = _
    rw [List.append_assoc]
    exact CStr.cstr_append version _
  · unfold poke
    rw [List.take_zero, List.nil_append]
    exact List.take_left

theorem decrypt_encrypt_short :
    ∃ image ep' mem, encryptBuf (fun _ => true) (encParam (CStr.lit ['k', 'e', 'y'] (by decide))
        (CStr.lit ['s', 't', 'a', 'r', 't'] (by decide)) (CStr.lit ['W'] (by decide))
        (CStr.lit [] (by decide)) 0x4f true 3 [1, 2, 3])
        (List.replicate 22 0 ++ ([1, 2, 3] ++ ([0, 0, 0, 0] ++ [7]))) 0 22 = .ok image ∧
      decryptBuf (fun _ => true) ⟨CStr.lit ['k', 'e', 'y'] (by decide), List.replicate 6 0,
        List.replicate 32 0, List.replicate 8 0, 0, true, 0, 0⟩ image 0 image.length
        = .ok (ep', mem) ∧ ep'.seed = 0x4f ∧ mem.take 3 = [1, 2, 3] := by
  obtain ⟨image, ep', mem, h1, h2, h3, -, -, -, -, h4⟩ := @decrypt_encrypt (fun _ => true)
    (fun _ _ _ => rfl) (CStr.lit ['k', 'e', 'y'] (by decide))
    (CStr.lit ['s', 't', 'a', 'r', 't'] (by decide)) (CStr.lit ['W'] (by decide))
    (CStr.lit [] (by decide)) 0x4f true 3 [1, 2, 3] (List.replicate 22 0) [0, 0, 0, 0] [7]
    ⟨CStr.lit ['k', 'e', 'y'] (by decide), List.replicate 6 0, List.replicate 32 0,
      List.replicate 8 0, 0, true, 0, 0⟩ (by decide) (.inl rfl) (by decide) (by decide) rfl
    (by decide) rfl rfl rfl rfl rfl rfl
  exact ⟨image, ep', mem, h1, h2, h3, h4⟩

end Buffalo
