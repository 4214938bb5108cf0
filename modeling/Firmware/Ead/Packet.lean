import Firmware.Ead.Server
import Firmware.Lib.Ones

/-!
# ead: the packets that are sent

`chksum` and `ead_send_packet_clone`: the headers of a reply are made from those of the request.

* `chksum`           the loop, 16 bits wide;
* `chksum_toNat`     it is the ones-complement sum;
* `sendPacket`       the bytes that `pcap_sendpacket` gets;
* `ValidReply`       the lengths and the checksums of a packet;
* `sendPacket_valid` a reply has them.
-/

set_option linter.unusedVariables false

namespace Ead
open Img Word

/-! ## the sum -/

def addCarry (sum t : UInt16) : UInt16 :=
  let sum := sum + t
  if sum < t then sum + 1 else sum

/-- `data` is the range from the pointer on -/
def chksum (sum : UInt16) : List UInt8 → UInt16
  | [] => sum
  | [a] => addCarry sum (a.toUInt16 <<< 8 + 0)
  | a :: b :: data => chksum (addCarry sum (a.toUInt16 <<< 8 + b.toUInt16)) data

theorem addCarry_toNat (s t : UInt16) : (addCarry s t).toNat = Ones.add s.toNat t.toNat := by
  have hs := s.toNat_lt
  have ht := t.toNat_lt
  have h1 : (s + t).toNat = (s.toNat + t.toNat) % 65536 := UInt16.toNat_add s t
  have h2 : (s + t + 1).toNat = ((s + t).toNat + 1) % 65536 := UInt16.toNat_add (s + t) 1
  unfold addCarry Ones.add
  dsimp only
  by_cases hc : s + t < t
  · rw [if_pos hc]
    rw [UInt16.lt_iff_toNat_lt] at hc
    split <;> omega
  · rw [if_neg hc]
    rw [UInt16.lt_iff_toNat_lt] at hc
    split <;> omega

theorem word_toNat (a b : UInt8) : (a.toUInt16 <<< 8 + b.toUInt16).toNat = 256 * a.toNat + b.toNat := by
  have ha := a.toNat_lt
  have hb := b.toNat_lt
  have h : (a.toUInt16 <<< 8).toNat = 256 * a.toNat := by
    rw [UInt16.toNat_shiftLeft, UInt8.toNat_toUInt16, Nat.shiftLeft_eq]
    show a.toNat * 2 ^ 8 % 2 ^ 16 = _
    omega
  rw [UInt16.toNat_add, h, UInt8.toNat_toUInt16]
  omega

theorem chksum_foldl (data : List UInt8) :
    ∀ sum : UInt16, (chksum sum data).toNat = (Ones.words data).foldl Ones.add sum.toNat := by
  induction data using Ones.words.induct with
  | case1 => exact fun sum => rfl
  | case2 a =>
    intro sum
    show (addCarry sum (a.toUInt16 <<< 8 + 0)).toNat = Ones.add sum.toNat (256 * a.toNat)
    have h := word_toNat a 0
    rw [addCarry_toNat]
    exact congrArg (Ones.add sum.toNat) h
  | case3 a b data ih =>
    intro sum
    show (chksum (addCarry sum _) data).toNat = (Ones.words data).foldl Ones.add
      (Ones.add sum.toNat (256 * a.toNat + b.toNat))
    rw [ih, addCarry_toNat, word_toNat]

/-- a sum over one range after another -/
theorem chksum_toNat (sum : UInt16) (data : List UInt8) :
    (chksum sum data).toNat = Ones.fold (sum.toNat + Ones.total data) := by
  have h := sum.toNat_lt
  rw [chksum_foldl]
  exact Ones.foldl_add (Ones.words_le data) (by omega)

/-! ## the packet -/

/-- `if (sum == 0) sum = 0xffff`, and the complement in network order -/
def complete (sum : UInt16) : List UInt8 :=
  put16 true (~~~(if sum = 0 then 0xffff else sum))

/-- `pkt` is the request; `pktbuf` holds the message of the reply from 42 on -/
def etherHeader (ethmac pkt pktbuf : List UInt8) : List UInt8 :=
  let p := poke pktbuf 0 (pkt.take 42)
  let p := poke p 6 ethmac
  poke p 0 (slice pkt 6 6)

def ipHeader (pkt p : List UInt8) (len : UInt16) : List UInt8 :=
  let p := poke p 16 [(len >>> 8).toUInt8, (len &&& 0xff).toUInt8]
  let p := poke p 26 (slice pkt 58 4)
  let p := poke p 30 (slice pkt 26 4)
  let p := poke p 24 [0, 0]
  poke p 24 (complete (chksum 0 (slice p 14 20)))

def udpHeader (pkt p : List UInt8) (len : UInt16) : List UInt8 :=
  let p := poke p 34 (slice pkt 36 2)
  let p := poke p 36 (slice pkt 34 2)
  let p := poke p 38 (put16 true len)
  let p := poke p 40 [0, 0]
  let sum := chksum (len + 17) (slice p 26 8)
  poke p 40 (complete (chksum sum (slice p 34 len.toNat)))

/-- `ead_send_packet_clone`, up to the bytes that `pcap_sendpacket` gets -/
def sendPacket (ethmac pkt pktbuf : List UInt8) : List UInt8 :=
  let p := etherHeader ethmac pkt pktbuf
  let msgLen := get32 true (slice p 46 4)
  let len := UInt16.ofNat (packetSize - 14 + msgLen.toNat)
  let p := ipHeader pkt p len
  let p := udpHeader pkt p (len - 20)
  p.take (packetSize + msgLen.toNat)

/-- the source, the destination, the protocol and the length of the UDP packet -/
def pseudoHeader (p : List UInt8) : List UInt8 := slice p 26 8 ++ ([0, 17] ++ slice p 38 2)

/-- a packet with an IP header of 20 bytes -/
structure ValidReply (p : List UInt8) : Prop where
  ipSum : Ones.sum (slice p 14 20) = 0xffff
  ipLen : Bits.ofBytes (slice p 16 2) = p.length - 14
  udpLen : Bits.ofBytes (slice p 38 2) = p.length - 34
  /-- also where the field is 0 -/
  udpSum : Ones.sum (pseudoHeader p ++ p.drop 34) = 0xffff

/-! ## checksums -/

/-- a patch inside of a slice -/
theorem slice_poke_inside {m d : List UInt8} {b n k : Nat} (h : k + d.length ≤ n)
    (hm : b + n ≤ m.length) : slice (poke m (b + k) d) b n = poke (slice m b n) k d := by
  have hs := slice_length m b n hm
  have hl : (poke (slice m b n) k d).length = n := by
    rw [poke_length _ _ _ (by rw [hs]; exact h), hs]
  have hself := slice_poke_self m b (poke (slice m b n) k d) (by rw [hl]; exact hm)
  rw [hl] at hself
  rw [← poke_slice m d b n k h hm, hself]

/-- the complement of a sum, in the place of the zero that was summed -/
theorem complete_fold {m : List UInt8} {k s : Nat} {sum : UInt16} (hk : k % 2 = 0)
    (hm : k + 2 ≤ m.length) (hpos : 0 < s + Ones.total (poke m k [0, 0]))
    (hsum : sum.toNat = Ones.fold (s + Ones.total (poke m k [0, 0]))) :
    Ones.fold (s + Ones.total (poke m k (complete sum))) = 0xffff := by
  have hne : sum ≠ 0 := by
    rintro rfl
    have h0 : (0 : UInt16).toNat = 0 := rfl
    rw [h0] at hsum
    unfold Ones.fold at hsum
    split at hsum <;> omega
  have hc : (~~~sum).toNat = 65535 - sum.toNat := UInt16.toNat_not sum
  unfold complete
  rw [if_neg hne, Ones.total_poke _ hk hm, ← Nat.add_assoc, hc, hsum]
  exact Ones.fold_complete hpos

theorem complete_length (sum : UInt16) : (complete sum).length = 2 := put16_length ..

/-- `len[0] = len >> 8; len[1] = len & 0xff` -/
theorem lenBytes_eq (len : UInt16) : [(len >>> 8).toUInt8, (len &&& 0xff).toUInt8] = put16 true len := by
  have hl := len.toNat_lt
  unfold put16
  rw [if_pos rfl]
  congr 1
  · refine UInt8.toNat_inj.mp ?_
    rw [UInt16.toNat_toUInt8, UInt16.toNat_shiftRight, UInt8.toNat_ofNat', Nat.shiftRight_eq_div_pow]
    rfl
  · congr 1
    refine UInt8.toNat_inj.mp ?_
    rw [UInt16.toNat_toUInt8, UInt16.toNat_and, UInt8.toNat_ofNat']
    show (len.toNat &&& 2 ^ 8 - 1) % 2 ^ 8 = len.toNat % 2 ^ 8
    rw [Nat.and_two_pow_sub_one_eq_mod, Nat.mod_mod]

theorem ofBytes_put16 (w : UInt16) : Bits.ofBytes (put16 true w) = w.toNat := by
  have hw := w.toNat_lt
  show 256 * (256 * 0 + (UInt8.ofNat (w.toNat / 256)).toNat) + (UInt8.ofNat w.toNat).toNat = w.toNat
  rw [UInt8.toNat_ofNat', UInt8.toNat_ofNat']
  omega

/-! ## the headers -/

section
variable {pkt p : List UInt8}

theorem ipHeader_spec (len : UInt16) (hpkt : packetSize ≤ pkt.length) (hp : packetSize ≤ p.length)
    (hlen : 0 < len.toNat) :
    (ipHeader pkt p len).length = p.length ∧ (ipHeader pkt p len).drop 34 = p.drop 34 ∧
    slice (ipHeader pkt p len) 16 2 = put16 true len ∧
    Ones.sum (slice (ipHeader pkt p len) 14 20) = 0xffff := by
  unfold packetSize at *
  have h1 : (slice pkt 58 4).length = 4 := slice_length _ _ _ (by omega)
  have h2 : (slice pkt 26 4).length = 4 := slice_length _ _ _ (by omega)
  -- the buffer before the checksum
  obtain ⟨q, hq⟩ : ∃ q, q = poke (poke (poke p 16 (put16 true len)) 26 (slice pkt 58 4)) 30
      (slice pkt 26 4) := ⟨_, rfl⟩
  have hl1 : (poke p 16 (put16 true len)).length = p.length :=
    poke_length _ _ _ (by rw [put16_length]; omega)
  have hl2 : (poke (poke p 16 (put16 true len)) 26 (slice pkt 58 4)).length = p.length := by
    rw [poke_length _ _ _ (by omega), hl1]
  have hl : q.length = p.length := by rw [hq, poke_length _ _ _ (by omega), hl2]
  have hdrop : q.drop 34 = p.drop 34 := by
    rw [hq, drop_poke _ _ _ _ (by omega) (by omega), drop_poke _ _ _ _ (by omega) (by omega),
      drop_poke _ _ _ _ (by rw [put16_length]; omega) (by rw [put16_length]; omega)]
  have hlenq : slice q 16 2 = put16 true len := by
    rw [hq, slice_poke_before _ _ _ _ _ (by omega) (by omega),
      slice_poke_before _ _ _ _ _ (by omega) (by omega), ← put16_length true len]
    exact slice_poke_self _ _ _ (by rw [put16_length]; omega)
  have he : ipHeader pkt p len
      = poke q 24 (complete (chksum 0 (slice (poke q 24 [0, 0]) 14 20))) := by
    unfold ipHeader
    dsimp only
    rw [lenBytes_eq, ← hq]
    exact poke_poke _ _ _ _ (by rw [complete_length]; rfl) (by show 24 + 2 ≤ _; omega)
  have hin : slice (poke q 24 [0, 0]) 14 20 = poke (slice q 14 20) 10 [0, 0] :=
    @slice_poke_inside q [0, 0] 14 20 10 (by decide) (by omega)
  have hs : (slice q 14 20).length = 20 := slice_length _ _ _ (by omega)
  rw [he]
  refine ⟨?_, ?_, ?_, ?_⟩
  · rw [poke_length _ _ _ (by rw [complete_length]; omega), hl]
  · rw [drop_poke _ _ _ _ (by rw [complete_length]; decide) (by rw [complete_length]; omega), hdrop]
  · rw [slice_poke_before _ _ _ _ _ (by decide) (by omega), hlenq]
  · rw [Ones.sum_eq, ← Nat.zero_add (Ones.total _), hin,
      @slice_poke_inside q _ 14 20 10 (by rw [complete_length]; decide) (by omega)]
    refine complete_fold (by decide) (by omega) ?_ (chksum_toNat 0 _)
    have hword : slice (poke (slice q 14 20) 10 [0, 0]) 2 2 = put16 true len := by
      rw [slice_poke_before _ _ _ _ _ (by decide) (by omega), slice_slice _ (by decide), hlenq]
    have hle := Ones.le_total (by decide) (by rw [poke_length _ _ _ (by rw [hs]; decide)]; omega) hword
    omega

theorem udpHeader_spec (len : UInt16) (hpkt : packetSize ≤ pkt.length)
    (hp : 34 + len.toNat ≤ p.length) (hlen : 8 ≤ len.toNat) (hlt : len.toNat + 17 < 65536) :
    (udpHeader pkt p len).length = p.length ∧ (udpHeader pkt p len).take 34 = p.take 34 ∧
    (udpHeader pkt p len).drop 42 = p.drop 42 ∧
    slice (udpHeader pkt p len) 38 2 = put16 true len ∧
    Ones.sum (pseudoHeader (udpHeader pkt p len) ++ slice (udpHeader pkt p len) 34 len.toNat)
      = 0xffff := by
  unfold packetSize at hpkt
  have h1 : (slice pkt 36 2).length = 2 := slice_length _ _ _ (by omega)
  have h2 : (slice pkt 34 2).length = 2 := slice_length _ _ _ (by omega)
  have h3 := put16_length true len
  -- the buffer before the checksum
  obtain ⟨q, hq⟩ : ∃ q, q = poke (poke (poke p 34 (slice pkt 36 2)) 36 (slice pkt 34 2)) 38
      (put16 true len) := ⟨_, rfl⟩
  have hl1 : (poke p 34 (slice pkt 36 2)).length = p.length := poke_length _ _ _ (by omega)
  have hl2 : (poke (poke p 34 (slice pkt 36 2)) 36 (slice pkt 34 2)).length = p.length := by
    rw [poke_length _ _ _ (by omega), hl1]
  have hl : q.length = p.length := by rw [hq, poke_length _ _ _ (by omega), hl2]
  have htake : slice q 0 34 = slice p 0 34 := by
    rw [hq, slice_poke_before _ _ _ _ _ (by omega) (by omega),
      slice_poke_before _ _ _ _ _ (by omega) (by omega),
      slice_poke_before _ _ _ _ _ (by omega) (by omega)]
  have hdrop : q.drop 42 = p.drop 42 := by
    rw [hq, drop_poke _ _ _ _ (by omega) (by omega), drop_poke _ _ _ _ (by omega) (by omega),
      drop_poke _ _ _ _ (by omega) (by omega)]
  have hlenq : slice q 38 2 = put16 true len := by
    have hself := slice_poke_self (poke (poke p 34 (slice pkt 36 2)) 36 (slice pkt 34 2)) 38
      (put16 true len) (by omega)
    rw [h3] at hself
    rw [hq, hself]
  obtain ⟨sum, hsum⟩ : ∃ sum, sum = chksum (chksum (len + 17) (slice (poke q 40 [0, 0]) 26 8))
      (slice (poke q 40 [0, 0]) 34 len.toNat) := ⟨_, rfl⟩
  have he : udpHeader pkt p len = poke q 40 (complete sum) := by
    unfold udpHeader
    dsimp only
    rw [← hq, ← hsum]
    exact poke_poke _ _ _ _ (by rw [complete_length]; rfl) (by show 40 + 2 ≤ _; omega)
  have hc := complete_length sum
  have haddr : ∀ d : List UInt8, slice (poke q 40 d) 26 8 = slice q 26 8 := fun d =>
    slice_poke_before _ _ _ _ _ (by decide) (by omega)
  have hin : ∀ d : List UInt8, d.length = 2 →
      slice (poke q 40 d) 34 len.toNat = poke (slice q 34 len.toNat) 6 d := fun d hd =>
    @slice_poke_inside q d 34 len.toNat 6 (by omega) (by omega)
  have hs : (slice q 34 len.toNat).length = len.toNat := slice_length _ _ _ (by omega)
  have h17 : (len + 17).toNat = len.toNat + 17 := by
    rw [UInt16.toNat_add]
    exact Nat.mod_eq_of_lt hlt
  rw [he]
  have hudp : slice (poke q 40 (complete sum)) 38 2 = put16 true len := by
    rw [slice_poke_before _ _ _ _ _ (by decide) (by omega), hlenq]
  refine ⟨by rw [poke_length _ _ _ (by omega), hl], ?_, ?_, hudp, ?_⟩
  · have ht := slice_poke_before q 40 0 34 (complete sum) (by decide) (by omega)
    exact ht.trans htake
  · rw [drop_poke _ _ _ _ (by omega) (by omega), hdrop]
  · have ha : (slice q 26 8).length % 2 = 0 := by rw [slice_length _ _ _ (by omega)]
    have h0 : ([0, 17] : List UInt8).length % 2 = 0 := rfl
    have hu : (put16 true len).length % 2 = 0 := by rw [h3]
    have htot : Ones.total (pseudoHeader (poke q 40 (complete sum)) ++
        slice (poke q 40 (complete sum)) 34 len.toNat)
        = (len.toNat + 17 + Ones.total (slice q 26 8)) +
          Ones.total (poke (slice q 34 len.toNat) 6 (complete sum)) := by
      unfold pseudoHeader
      rw [haddr, hudp, hin _ hc, List.append_assoc, List.append_assoc, Ones.total_append _ ha,
        Ones.total_append _ h0, Ones.total_append _ hu, Ones.total_put16]
      show _ + (17 + _) = _
      omega
    rw [Ones.sum_eq, htot]
    refine complete_fold (by decide) (by omega) (by omega) ?_
    rw [hsum, haddr, hin _ rfl, chksum_toNat, chksum_toNat, h17, Ones.fold_add]

theorem etherHeader_spec {ethmac : List UInt8} (hmac : ethmac.length = 6)
    (hpkt : packetSize ≤ pkt.length) (hp : packetSize ≤ p.length) :
    (etherHeader ethmac pkt p).length = p.length ∧ (etherHeader ethmac pkt p).drop 42 = p.drop 42 := by
  unfold packetSize at *
  have h1 : (pkt.take 42).length = 42 := by
    rw [List.length_take]
    omega
  have h2 : (slice pkt 6 6).length = 6 := slice_length _ _ _ (by omega)
  have hl1 : (poke p 0 (pkt.take 42)).length = p.length := poke_length _ _ _ (by omega)
  have hl2 : (poke (poke p 0 (pkt.take 42)) 6 ethmac).length = p.length := by
    rw [poke_length _ _ _ (by omega), hl1]
  unfold etherHeader
  dsimp only
  refine ⟨by rw [poke_length _ _ _ (by omega), hl2], ?_⟩
  rw [drop_poke _ _ _ _ (by omega) (by omega), drop_poke _ _ _ _ (by omega) (by omega),
    drop_poke _ _ _ _ (by omega) (by omega)]

end

section
variable {ethmac pkt pktbuf : List UInt8} (hmac : ethmac.length = 6)
  (hpkt : packetSize ≤ pkt.length) (hlen : (get32 true (slice pktbuf 46 4)).toNat < 65000)
  (hbuf : packetSize + (get32 true (slice pktbuf 46 4)).toNat ≤ pktbuf.length)
include hmac hpkt hlen hbuf

/-- the buffer `q` has the IP header, `r` also the UDP header -/
theorem sendPacket_stages : ∃ (q r : List UInt8) (ip udp : UInt16),
    ip.toNat = 48 + (get32 true (slice pktbuf 46 4)).toNat ∧
    udp.toNat = 28 + (get32 true (slice pktbuf 46 4)).toNat ∧
    sendPacket ethmac pkt pktbuf
      = r.take (packetSize + (get32 true (slice pktbuf 46 4)).toNat) ∧
    q.length = pktbuf.length ∧ r.length = pktbuf.length ∧ r.take 34 = q.take 34 ∧
    r.drop 42 = pktbuf.drop 42 ∧ slice q 16 2 = put16 true ip ∧ slice r 38 2 = put16 true udp ∧
    Ones.sum (slice q 14 20) = 0xffff ∧
    Ones.sum (pseudoHeader r ++ slice r 34 udp.toNat) = 0xffff := by
  generalize hn : (get32 true (slice pktbuf 46 4)).toNat = n at hlen hbuf ⊢
  obtain ⟨he1, he2⟩ := etherHeader_spec hmac hpkt (p := pktbuf) (by omega)
  have hword : slice (etherHeader ethmac pkt pktbuf) 46 4 = slice pktbuf 46 4 := by
    have h4 : ∀ m : List UInt8, slice m 46 4 = slice (m.drop 42) 4 4 := by
      intro m
      unfold slice
      rw [List.drop_drop]
    rw [h4, he2, ← h4]
  obtain ⟨ip, hip⟩ : ∃ ip, ip = UInt16.ofNat (packetSize - 14 + n) := ⟨_, rfl⟩
  have hl : ip.toNat = 48 + n := by
    rw [hip, UInt16.toNat_ofNat']
    unfold packetSize
    omega
  have hl20 : (ip - 20).toNat = 28 + n := by
    rw [UInt16.toNat_sub_of_le _ _ (by rw [UInt16.le_iff_toNat_le, hl]; show 20 ≤ _; omega), hl]
    show 48 + n - 20 = _
    omega
  obtain ⟨hi1, hi2, hi3, hi4⟩ := ipHeader_spec (p := etherHeader ethmac pkt pktbuf) ip hpkt
    (by omega) (by omega)
  obtain ⟨q, hq⟩ : ∃ q, q = ipHeader pkt (etherHeader ethmac pkt pktbuf) ip := ⟨_, rfl⟩
  rw [← hq] at hi1 hi2 hi3 hi4
  obtain ⟨hu1, hu2, hu3, hu4, hu5⟩ := udpHeader_spec (p := q) (ip - 20) hpkt
    (by unfold packetSize at *; omega) (by omega) (by omega)
  refine ⟨q, udpHeader pkt q (ip - 20), ip, ip - 20, hl, hl20, ?_, hi1.trans he1,
    hu1.trans (hi1.trans he1), hu2, ?_, hi3, hu4, hi4, hu5⟩
  · unfold sendPacket
    dsimp only
    rw [hword, hn, ← hip, ← hq]
  · rw [hu3, ← he2, ← List.drop_drop (i := 8) (j := 34) (l := q), hi2, List.drop_drop]

/-- the message is sent as the buffer has it -/
theorem sendPacket_message : (sendPacket ethmac pkt pktbuf).drop 42
    = slice pktbuf 42 (20 + (get32 true (slice pktbuf 46 4)).toNat) := by
  obtain ⟨q, r, ip, udp, -, -, hr, -, -, -, hdrop, -⟩ := sendPacket_stages hmac hpkt hlen hbuf
  rw [hr, List.drop_take, hdrop]
  unfold slice packetSize
  congr 1
  omega

end

/-- the event with which the server logs the packet has the data of it -/
theorem sendPacket_sent {ethmac pkt pktbuf : List UInt8} {s : Server} (hmac : ethmac.length = 6)
    (hpkt : packetSize ≤ pkt.length) (hlen : (get32 true (slice pktbuf 46 4)).toNat < 65000)
    (hbuf : packetSize + (get32 true (slice pktbuf 46 4)).toNat ≤ pktbuf.length)
    (hmsg : s.msgLen = get32 true (slice pktbuf 46 4)) (hdata : s.pktbuf = pktbuf.drop packetSize)
    (type : Int) : sendPacketClone s type
      = s.emit (.sent type s.msgLen ((sendPacket ethmac pkt pktbuf).drop packetSize)) := by
  have hd : (sendPacket ethmac pkt pktbuf).drop packetSize = s.pktbuf.take s.msgLen.toNat := by
    rw [show packetSize = 42 + 20 from rfl, ← List.drop_drop, sendPacket_message hmac hpkt hlen hbuf,
      hdata, hmsg]
    unfold slice
    rw [List.drop_take, List.drop_drop, Nat.add_sub_cancel_left]
    rfl
  rw [hd]
  rfl

/-- **A reply carries valid checksums and lengths.** The request has at least the headers; the length
field of the reply is that of the data behind it. The server logs these data. -/
theorem sendPacket_valid (ethmac pkt pktbuf : List UInt8) (hmac : ethmac.length = 6)
    (hpkt : packetSize ≤ pkt.length) (hlen : (get32 true (slice pktbuf 46 4)).toNat < 65000)
    (hbuf : packetSize + (get32 true (slice pktbuf 46 4)).toNat ≤ pktbuf.length) :
    ValidReply (sendPacket ethmac pkt pktbuf) ∧
    (sendPacket ethmac pkt pktbuf).drop 42
      = slice pktbuf 42 (20 + (get32 true (slice pktbuf 46 4)).toNat) ∧
    ∀ (s : Server) (type : Int), s.msgLen = get32 true (slice pktbuf 46 4) →
      s.pktbuf = pktbuf.drop packetSize → sendPacketClone s type
        = s.emit (.sent type s.msgLen ((sendPacket ethmac pkt pktbuf).drop packetSize)) := by
  refine ⟨?_, sendPacket_message hmac hpkt hlen hbuf,
    fun s type hmsg hdata => sendPacket_sent hmac hpkt hlen hbuf hmsg hdata type⟩
  obtain ⟨q, r, ip, udp, hip, hudp, hr, hql, hrl, h34, -, h16, h38, hsum, hsum'⟩ :=
    sendPacket_stages hmac hpkt hlen hbuf
  generalize (get32 true (slice pktbuf 46 4)).toNat = n at *
  rw [hudp] at hsum'
  unfold packetSize at *
  have hl : (r.take (62 + n)).length = 62 + n := by
    rw [List.length_take]
    omega
  -- the packet is the front of `r`, and `q` is the front of it
  have hin : ∀ {off k : Nat}, off + k ≤ 62 + n → slice (r.take (62 + n)) off k = slice r off k := by
    intro off k h
    conv_rhs => rw [← List.take_append_drop (62 + n) r]
    rw [slice_append_left _ _ _ _ (by omega)]
  have hin34 : ∀ {off k : Nat}, off + k ≤ 34 → slice r off k = slice q off k := by
    intro off k h
    have h34' : ∀ m : List UInt8, m.length = r.length → slice m off k = slice (m.take 34) off k := by
      intro m hm
      conv_lhs => rw [← List.take_append_drop 34 m]
      rw [slice_append_left _ _ _ _ (by rw [List.length_take]; omega)]
    rw [h34' r rfl, h34, ← h34' q (by omega)]
  rw [hr]
  refine ⟨?_, ?_, ?_, ?_⟩
  · rw [hin (by omega), hin34 (by decide), hsum]
  · rw [hin (by omega), hin34 (by decide), h16, ofBytes_put16, hip, hl]
    omega
  · rw [hin (by omega), h38, ofBytes_put16, hudp, hl]
    omega
  · have htail : (r.take (62 + n)).drop 34 = slice r 34 (28 + n) := by
      rw [List.drop_take, show 62 + n - 34 = 28 + n by omega]
      rfl
    unfold pseudoHeader at hsum' ⊢
    rw [hin (by omega), hin (by omega), htail]
    exact hsum'

/-- three bytes of data -/
theorem sendPacket_valid_three :
    ValidReply (sendPacket [0, 0x13, 0x37, 1, 2, 3] (List.replicate 62 7)
      (List.replicate 46 0 ++ ([0, 0, 0, 3] ++ (List.replicate 12 0 ++ [1, 2, 3])))) ∧
    (sendPacket [0, 0x13, 0x37, 1, 2, 3] (List.replicate 62 7)
      (List.replicate 46 0 ++ ([0, 0, 0, 3] ++ (List.replicate 12 0 ++ [1, 2, 3])))).drop 42
      = slice (List.replicate 46 0 ++ ([0, 0, 0, 3] ++ (List.replicate 12 0 ++ [1, 2, 3]))) 42
        (20 + (get32 true (slice (List.replicate 46 0 ++ ([0, 0, 0, 3] ++ (List.replicate 12 0 ++
          [1, 2, 3]))) 46 4)).toNat) := by
  obtain ⟨hvalid, hdata, -⟩ := sendPacket_valid [0, 0x13, 0x37, 1, 2, 3] (List.replicate 62 7)
    (List.replicate 46 0 ++ ([0, 0, 0, 3] ++ (List.replicate 12 0 ++ [1, 2, 3]))) (by decide) (by decide)
    (by decide +kernel) (by decide +kernel)
  exact ⟨hvalid, hdata⟩

end Ead
