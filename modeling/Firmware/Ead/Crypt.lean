import Firmware.Lib.Blocks

/-!
# ead: encrypted messages

`ead-crypt.c` and the block function of `sha1.c`. AES is a parameter.

* `shaTransform`     SHA-1 of one block, `sha1.c`;
* `Crypt`            the variables of `ead-crypt.c`: the key, the two counters, the increments;
* `encryptMessage`   a message from `struct ead_msg_encrypted` on, encrypted in place;
* `decryptMessage`   the same decrypted in place, with the checks.
-/

set_option linter.unusedVariables false

namespace Ead
open Img Word CInt

/-- the `int` with the bits of `w` -/
def toInt (w : UInt32) : Int := if w.toNat < 2 ^ 31 then w.toNat else (w.toNat : Int) - 2 ^ 32

/-! ## SHA-1 -/

def rol32 (word : UInt32) (shift : UInt32) : UInt32 := (word <<< shift) ||| (word >>> (32 - shift))

def f1 (x y z : UInt32) : UInt32 := z ^^^ (x &&& (y ^^^ z))
def f2 (x y z : UInt32) : UInt32 := x ^^^ y ^^^ z
def f3 (x y z : UInt32) : UInt32 := (x &&& y) + (z &&& (x ^^^ y))

def k1 : UInt32 := 0x5A827999
def k2 : UInt32 := 0x6ED9EBA1
def k3 : UInt32 := 0x8F1BBCDC
def k4 : UInt32 := 0xCA62C1D6

/-- `uint32_t hash[5]` -/
structure Digest where
  a : UInt32
  b : UInt32
  c : UInt32
  d : UInt32
  e : UInt32
deriving DecidableEq

def shaInit : Digest := ⟨0x67452301, 0xefcdab89, 0x98badcfe, 0x10325476, 0xc3d2e1f0⟩

def shaWords (data : List UInt8) : List UInt32 :=
  (List.range 64).foldl
    (fun w i => w ++ [rol32 (w.getD (i + 13) 0 ^^^ w.getD (i + 8) 0 ^^^ w.getD (i + 2) 0 ^^^ w.getD i 0) 1])
    ((List.range 16).map fun i => get32 true (slice data (4 * i) 4))

def shaRound (f : UInt32 → UInt32 → UInt32 → UInt32) (k : UInt32) (h : Digest) (w : UInt32) : Digest :=
  ⟨f h.b h.c h.d + k + rol32 h.a 5 + h.e + w, h.a, rol32 h.b 30, h.c, h.d⟩

def shaTransform (digest : Digest) (data : List UInt8) : Digest :=
  let w := shaWords data
  let h := (slice w 0 20).foldl (shaRound f1 k1) digest
  let h := (slice w 20 20).foldl (shaRound f2 k2) h
  let h := (slice w 40 20).foldl (shaRound f3 k3) h
  let h := (slice w 60 20).foldl (shaRound f2 k4) h
  ⟨digest.a + h.a, digest.b + h.b, digest.c + h.c, digest.d + h.d, digest.e + h.e⟩

/-- the digest of the three bytes of the standard's first test -/
example : shaTransform shaInit ([0x61, 0x62, 0x63, 0x80] ++ List.replicate 59 0 ++ [24])
    = ⟨0xa9993e36, 0x4706816a, 0xba3e2571, 0x7850c26c, 0x9cd0d89d⟩ := by decide +kernel

/-! ## the cipher -/

/-- `rijndaelEncrypt` and `rijndaelDecrypt` under a key of 16 bytes: there are ten rounds -/
structure Cipher where
  encrypt : List UInt8 → List UInt8 → List UInt8
  decrypt : List UInt8 → List UInt8 → List UInt8
  encrypt_length : ∀ key b, b.length = 16 → (encrypt key b).length = 16
  decrypt_length : ∀ key b, b.length = 16 → (decrypt key b).length = 16

/-- decryption inverts encryption, block by block -/
def Cipher.Inverts (aes : Cipher) : Prop :=
  ∀ key b, b.length = 16 → aes.decrypt key (aes.encrypt key b) = b

/-! ## the counters -/

def maxIvIncr : UInt32 := 128

structure Crypt where
  key : List UInt8
  rxIv : UInt32
  txIv : UInt32
  ivofsVec : UInt32
  ivofsIdx : Nat

/-- `big` is the byte order of the host; the phase of the increments stays as it was -/
def setKey (big : Bool) (skey : List UInt8) (c : Crypt) : Crypt :=
  let iv := get32 true (slice skey 32 4) &&& 0x00ffffff
  { c with key := skey.take 16, rxIv := iv, txIv := iv, ivofsVec := get32 big (slice skey 36 4) }

def checkRxIv (c : Crypt) (iv : UInt32) : Option Crypt :=
  if iv ≤ c.rxIv then none
  else if iv > c.rxIv + maxIvIncr then none
  else some { c with rxIv := iv }

/-- the increment of the next message -/
def Crypt.ofs (c : Crypt) : UInt32 := 1 + ((c.ivofsVec >>> UInt32.ofNat (2 * c.ivofsIdx)) &&& 0x3)

def getTxIv (c : Crypt) : Crypt :=
  { c with ivofsIdx := (c.ivofsIdx + 1) % 16, txIv := c.txIv + c.ofs }

/-! ## messages -/

def encPad : Nat := 64

/-- `sizeof(struct ead_msg_encrypted)`: the hash, the IV at 20, the padding at 24 -/
def encSize : Nat := 25

def ivOf (body : List UInt8) : UInt32 := get32 true (slice body 20 4)
def padOf (body : List UInt8) : UInt8 := body.getD 24 0

def Digest.bytes (h : Digest) : List UInt8 :=
  put32 true h.a ++ (put32 true h.b ++ (put32 true h.c ++ (put32 true h.d ++ put32 true h.e)))

def hashOf (body : List UInt8) : Digest :=
  ⟨get32 true (slice body 0 4), get32 true (slice body 4 4), get32 true (slice body 8 4),
    get32 true (slice body 12 4), get32 true (slice body 16 4)⟩

/-- the hash and the message with its hash part zeroed -/
def hashMessage (body : List UInt8) (len : Nat) : Digest × List UInt8 :=
  let body := poke body 0 (List.replicate 20 0)
  (foldBlocks 64 shaTransform ((len + 63) / 64) body shaInit, body)

def padFor (len : Nat) : Nat := (encPad - (len + encSize) % encPad) % encPad

/-- `enclen` -/
def encLen (len : Nat) : Nat := len + encSize + padFor len

/-- the message before it is encrypted -/
def sealMessage (iv : UInt32) (body : List UInt8) (len : Nat) : List UInt8 :=
  let body := poke body 24 [UInt8.ofNat (padFor len)]
  let body := poke body 20 (put32 true iv)
  let (hash, body) := hashMessage body (encLen len)
  poke body 0 hash.bytes

structure Encrypted where
  crypt : Crypt
  /-- the field of the header -/
  len : UInt32
  body : List UInt8

/-- the message in `body`, from `struct ead_msg_encrypted` on: `len` bytes of data stand at 25 -/
def encryptMessage (aes : Cipher) (c : Crypt) (body : List UInt8) (len : Nat) : Encrypted :=
  let c := getTxIv c
  ⟨c, UInt32.ofNat (encLen len),
    mapBlocks 16 (aes.encrypt c.key) ((encLen len + 15) / 16) (sealMessage c.txIv body len)⟩

/-- the message after the loop of decryptions; `n` is its length -/
def plainOf (aes : Cipher) (key : List UInt8) (n : Int) (body : List UInt8) : List UInt8 :=
  mapBlocks 16 (aes.decrypt key) ((n.toNat + 15) / 16) body

structure Decrypted where
  crypt : Crypt
  body : List UInt8
  /-- the comparison of the hashes succeeded -/
  verified : Bool
  ret : Int

/-- `len` is the field of the header -/
def decryptMessage (aes : Cipher) (c : Crypt) (len : UInt32) (body : List UInt8) : Decrypted :=
  let n := toInt len
  if n = 0 ∨ n.tmod encPad > 0 then ⟨c, body, false, 0⟩
  else
    let body := plainOf aes c.key n body
    if padOf body ≥ UInt8.ofNat encPad then ⟨c, body, false, 0⟩
    else
      match checkRxIv c (ivOf body) with
      | none => ⟨c, body, false, 0⟩
      | some c =>
        let hashOld := hashOf body
        let (hashNew, body) := hashMessage body n.toNat
        if hashOld ≠ hashNew then ⟨c, body, false, 0⟩
        else ⟨c, body, true, wrap (n - ((padOf body).toNat + encSize))⟩

end Ead
