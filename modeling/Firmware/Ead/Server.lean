import Firmware.Ead.Crypt
import Firmware.Lib.Bits

/-!
# ead: the server

`ead.c` from `handle_packet` on, one frame at a time.

* `Frame`          what pcap hands over;
* `Env`            what the calls out of `ead.c` return while a frame is handled: the SRP library,
                   `pipe` and `fork`, the output of the command;
* `Server`         the variables of the process, with a log of what it did;
* `setState`, the handlers, `parseMessage`, `handlePacket`.

`none` is a crash: a copy of a negative length, or a NULL pointer.
-/

set_option linter.unusedVariables false

namespace Ead
open Img Word

def typePing : Int := 0
def typeSetUsername : Int := 2
def typeGetPrime : Int := 4
def typeSendA : Int := 6
def typeSendAuth : Int := 8
def typeSendCmd : Int := 10

def eadPort : Nat := 56026
def eadMagic : Nat := 3671771902
def maxParamLen : Int := 256

/-- `sizeof(struct ead_packet)`: the message starts at 42, its data at 62 -/
def packetSize : Nat := 62

/-- `sizeof(struct ead_msg_cmd)`: the type, the timeout -/
def cmdSize : Nat := 3

/-- `PCAP_MRU`, less the headers -/
def pktbufSize : Nat := 1538

structure Config where
  nid : Nat
  instanceId : Nat
  devName : List UInt8
  /-- the byte order of the host -/
  big : Bool
  /-- `size_t` has 64 bits -/
  wide : Bool

/-! ## frames -/

/-- `len` is that of the pcap header -/
structure Frame where
  len : UInt32
  bytes : List UInt8

/-- a field in network order -/
def Frame.field (f : Frame) (off n : Nat) : Nat := Bits.ofBytes (slice f.bytes off n)

def Frame.msgLen (f : Frame) : UInt32 := get32 true (slice f.bytes 46 4)
def Frame.msgType (f : Frame) : UInt32 := get32 true (slice f.bytes 50 4)
def Frame.data (f : Frame) : List UInt8 := f.bytes.drop packetSize

/-! ## the process -/

structure Env where
  preparePassword : Bool
  /-- `t_serveropenraw` returns a server -/
  serveropenraw : Bool
  /-- `tce->index - 1`, `ts->s` and `pw_saltbuf` -/
  prime : UInt8
  salt : List UInt8
  extSalt : List UInt8
  servergenexp : Option (List UInt8)
  servergetkey : Option (List UInt8)
  /-- `t_serververify` returns 0 -/
  serververify : Bool
  serverresponse : List UInt8
  pipe : Bool
  fork : Bool
  /-- what the turns of the loop in `handle_send_cmd` read, up to the one that leaves it -/
  reads : List (List UInt8)
  /-- the child is still there after the timeout -/
  childPending : Bool

inductive Event where
  /-- a frame is passed to the handler of its type -/
  | handled (type : Int) (ts : Option Nat)
  | opened (ts : Option Nat)
  | closed (ts : Option Nat)
  /-- `t_servergetkey` returned a key -/
  | gotKey (ts : Option Nat)
  /-- `t_serververify` returned 0 -/
  | verified (ts : Option Nat)
  | system (cmd : List UInt8)
  /-- `ead_encrypt_message` made a body out of `data` -/
  | encrypted (iv : UInt32) (data : List UInt8) (len : UInt32) (body : List UInt8)
  | sent (type : Int) (len : UInt32) (data : List UInt8)
deriving DecidableEq

structure Server where
  state : Int
  /-- the open server of the SRP library; they are numbered as they are opened -/
  ts : Option Nat
  opens : Nat
  username : List UInt8
  a : List UInt8
  b : Option (List UInt8)
  crypt : Crypt
  /-- `pktbuf->msg`: its length field and its data -/
  msgLen : UInt32
  pktbuf : List UInt8
  log : List Event

def Server.init : Server :=
  ⟨typeSetUsername, none, 0, [], [], none, ⟨[], 0, 0, 0, 0⟩, 0, List.replicate pktbufSize 0, []⟩

def Server.emit (s : Server) (e : Event) : Server := { s with log := s.log ++ [e] }

/-- `ead_send_packet_clone` -/
def sendPacketClone (s : Server) (type : Int) : Server :=
  s.emit (.sent type s.msgLen (s.pktbuf.take s.msgLen.toNat))

/-- `t_serverclose(ts); ts = NULL` -/
def Server.close (s : Server) : Server := { s.emit (.closed s.ts) with ts := none }

def Server.open (s : Server) : Server :=
  { s.emit (.opened (some s.opens)) with ts := some s.opens, opens := s.opens + 1 }

def setState (cfg : Config) (env : Env) (s : Server) (nstate : Int) : Server :=
  if s.state = nstate then s
  else if nstate < s.state then
    if nstate < typeGetPrime ∧ s.state ≥ typeGetPrime then { s.close with state := nstate }
    else { s with state := nstate }
  else if s.state = typeSetUsername then
    if env.preparePassword = false then s
    else if env.serveropenraw = false then { s with ts := none }
    else { s.open with state := nstate }
  else if s.state = typeGetPrime then { s with b := env.servergenexp, state := nstate }
  else if s.state = typeSendA then
    match env.servergetkey with
    | none => s
    | some skey => { s.emit (.gotKey s.ts) with crypt := setKey cfg.big skey s.crypt, state := nstate }
  else { s with state := nstate }

/-! ## the handlers -/

/-- what a handler returns, and `*nstate` -/
structure Outcome where
  server : Server
  reply : Bool
  nstate : Int

def handlePing (cfg : Config) (s : Server) : Outcome :=
  let name := cfg.devName.take 1024
  let s := { s with msgLen := UInt32.ofNat (2 + name.length) }
  ⟨{ s with pktbuf := poke s.pktbuf 0 ([0, 1] ++ (name ++ [0])) }, true, s.state⟩

def handleSetUsername (cfg : Config) (env : Env) (s : Server) (f : Frame) : Outcome :=
  let s := setState cfg env s typeSetUsername
  ⟨{ s with username := ((slice f.data 0 32).takeWhile (· ≠ 0)).take 31, msgLen := 0 }, true,
    typeGetPrime⟩

def handleGetPrime (env : Env) (s : Server) : Option Outcome :=
  s.ts.map fun _ =>
    let pktbuf := poke s.pktbuf 0 [env.prime, UInt8.ofNat env.salt.length]
    let pktbuf := poke pktbuf 2 env.salt
    ⟨{ s with msgLen := 66, pktbuf := poke pktbuf 34 env.extSalt }, true, typeSendA⟩

def handleSendA (s : Server) (f : Frame) : Option Outcome :=
  let len := toInt (f.msgLen - 1)
  if len > maxParamLen + 1 then some ⟨s, false, s.state⟩
  else if len < 0 then none
  else
    s.b.map fun b =>
      ⟨{ s with a := slice f.data 1 len.toNat, msgLen := UInt32.ofNat (1 + b.length),
                pktbuf := poke s.pktbuf 1 b }, true, typeSendAuth⟩

def handleSendAuth (env : Env) (s : Server) : Outcome :=
  if env.serververify = false then ⟨s, false, typeSetUsername⟩
  else
    let s := s.emit (.verified s.ts)
    ⟨{ s with msgLen := 20, pktbuf := poke s.pktbuf 0 (env.serverresponse.take 20) }, true, typeSendCmd⟩

/-- `ead_encrypt_message` on `pktbuf`, with `done` and `data` in front of it -/
def encryptReply (aes : Cipher) (s : Server) (done : UInt8) (data : List UInt8) : Server :=
  let e := encryptMessage aes s.crypt (poke s.pktbuf encSize (done :: data)) (1 + data.length)
  { s with crypt := e.crypt, msgLen := e.len, pktbuf := e.body }.emit
    (.encrypted e.crypt.txIv (done :: data) e.len (e.body.take e.len.toNat))

/-- one turn of the loop over the output of the command -/
def sendData (aes : Cipher) (s : Server) (bytes : List UInt8) : Server :=
  sendPacketClone (encryptReply aes s 0 (bytes.take 1024)) (typeSendCmd + 1)

/-- `ntohs` of the one byte of the type -/
def cmdType (big : Bool) (type : UInt8) : Nat := if big then type.toNat else 256 * type.toNat

/-- the string that `system` gets: `cmd->data`, up to its NUL -/
def cmdOf (d : Decrypted) : List UInt8 :=
  (slice d.body (encSize + cmdSize) (d.ret - cmdSize).toNat).takeWhile (· ≠ 0)

/-- the rest of `handle_send_cmd` when the command was started -/
def replyCmd (aes : Cipher) (env : Env) (s : Server) (stream : Bool) : Outcome :=
  if stream then
    let s := env.reads.foldl (sendData aes) s
    if env.childPending then ⟨s, false, s.state⟩ else ⟨encryptReply aes s 1 [], true, s.state⟩
  else ⟨encryptReply aes s 1 [], true, s.state⟩

def handleSendCmd (aes : Cipher) (cfg : Config) (env : Env) (s : Server) (f : Frame) : Outcome :=
  let d := decryptMessage aes s.crypt f.msgLen f.data
  let s := { s with crypt := d.crypt }
  if d.ret - cmdSize ≤ 0 then ⟨s, false, s.state⟩
  else
    let type := cmdType cfg.big (d.body.getD encSize 0)
    if type = 0 then
      if env.pipe = false ∨ env.fork = false then ⟨s, false, s.state⟩
      else replyCmd aes env (s.emit (.system (cmdOf d))) true
    else if type = 1 then
      if env.fork = false then ⟨s, false, s.state⟩
      else replyCmd aes env (s.emit (.system (cmdOf d))) false
    else ⟨s, false, s.state⟩

/-! ## a frame -/

/-- what a type adds to `min_len`; `none` is a type without a handler -/
def minLen (type : Int) : Option Nat :=
  if type = typePing then some 0
  else if type = typeSetUsername then some 32
  else if type = typeGetPrime then some 0
  else if type = typeSendA then some 1
  else if type = typeSendAuth then some 20
  else if type = typeSendCmd then some (cmdSize + encSize)
  else none

def handle (aes : Cipher) (cfg : Config) (env : Env) (s : Server) (f : Frame) (type : Int) :
    Option Outcome :=
  if type = typePing then some (handlePing cfg s)
  else if type = typeSetUsername then some (handleSetUsername cfg env s f)
  else if type = typeGetPrime then handleGetPrime env s
  else if type = typeSendA then handleSendA s f
  else if type = typeSendAuth then some (handleSendAuth env s)
  else some (handleSendCmd aes cfg env s f)

/-- the end of `parse_message` -/
def finish (cfg : Config) (env : Env) (type : Int) (o : Outcome) : Server :=
  setState cfg env (if o.reply then sendPacketClone o.server (type + 1) else o.server) o.nstate

def parseMessage (aes : Cipher) (cfg : Config) (env : Env) (s : Server) (f : Frame) : Option Server :=
  let type := toInt f.msgType
  if type ≥ typeGetPrime ∧ s.state ≠ type then some s
  else if type ≠ typePing ∧ f.field 56 2 / 2 ^ 12 ≠ cfg.instanceId then some s
  else
    match minLen type with
    | none => some s
    | some k =>
      if toInt f.len < packetSize + k then some s
      else
        (handle aes cfg env ({ s with msgLen := 0 }.emit (.handled type s.ts)) f type).map
          (finish cfg env type)

/-- `sizeof(struct ead_packet) + ntohl(pkt->msg.len)` -/
def Frame.total (cfg : Config) (f : Frame) : Nat :=
  let n := packetSize + f.msgLen.toNat
  if cfg.wide then n else n % 2 ^ 32

def handlePacket (aes : Cipher) (cfg : Config) (env : Env) (s : Server) (f : Frame) : Option Server :=
  if f.len.toNat < packetSize then some s
  else if f.field 12 2 ≠ 0x0800 then some s
  else if slice f.bytes 0 6 ≠ List.replicate 6 0xff then some s
  else if f.field 23 1 ≠ 17 then some s
  else if f.field 36 2 ≠ eadPort then some s
  else if f.field 42 4 ≠ eadMagic then some s
  else if f.len.toNat < f.total cfg then some s
  else if f.field 54 2 ≠ 0xffff ∧ f.field 54 2 ≠ cfg.nid then some s
  else parseMessage aes cfg env s f

/-- the frames of a run, with what the calls out of `ead.c` returned for each of them -/
def runFrames (aes : Cipher) (cfg : Config) : Server → List (Env × Frame) → Option Server
  | s, [] => some s
  | s, (env, f) :: l => (handlePacket aes cfg env s f).bind fun s => runFrames aes cfg s l

end Ead
