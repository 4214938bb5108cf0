import Firmware.Switch.Devices

/-!
# swconfig: the dump of the switches

`swconfig_dump_switches` puts the switches into one netlink buffer after the other.  Its position,
`cb->args[0]`, counts a switch before the record of that switch is known to fit.

* `nlaPut`            an attribute in a buffer;
* `swconfigSendSwitch`, `swconfigDumpSwitches`   the model;
* `dumps`             calls until one adds nothing;
* `recordRoom`, `Fit` whether records fit, by their sizes;
* `dumps_iff`         when every switch is reported.
-/

set_option linter.unusedVariables false

namespace Swconfig
open CStr

/-! ## a buffer -/

/-- `nla_total_size` -/
def nlaTotalSize (payload : Nat) : Nat := (4 + payload + 3) / 4 * 4

/-- `nla_put`: the end of the attributes, in the error too -/
def nlaPut (size payload len : Nat) : Except Nat Nat :=
  if size - len < nlaTotalSize payload then .error len else .ok (len + nlaTotalSize payload)

def nlaPutU32 (size len : Nat) : Except Nat Nat := nlaPut size 4 len

def nlaPutString (size : Nat) (s : CStr) (len : Nat) : Except Nat Nat := nlaPut size (s.length + 1) len

def nlaNestStart (size len : Nat) : Except Nat Nat := nlaPut size 0 len

/-- the headers of netlink and of generic netlink -/
def headerSize : Nat := 20

/-- `genlmsg_put`; `none` is `NULL`, which `IS_ERR` does not see -/
def genlmsgPut (size len : Nat) : Option Nat :=
  if size - len < headerSize then none else some (len + headerSize)

/-! ## the record of a switch -/

structure Head where
  id : Nat
  devname : CStr
  netAlias : CStr
  name : CStr
  vlans : Nat
  ports : Nat
  cpuPort : Nat
deriving DecidableEq

def SwitchDev.head (dev : SwitchDev) : Head :=
  ⟨dev.id, dev.devname, dev.netAlias, dev.name, dev.vlans, dev.ports, dev.cpuPort⟩

/-- a `SWITCH_CMD_NEW_ATTR` message; an entry of the port map may be empty -/
structure Msg where
  head : Head
  portmap : List (Option (CStr × UInt32))
deriving DecidableEq

structure Skb where
  size : Nat
  len : Nat
  msgs : List Msg
deriving DecidableEq

def putHead (size : Nat) (dev : SwitchDev) (len : Nat) : Except Nat Nat := do
  let len ← nlaPutU32 size len
  let len ← nlaPutString size dev.devname len
  let len ← nlaPutString size dev.netAlias len
  let len ← nlaPutString size dev.name len
  let len ← nlaPutU32 size len
  let len ← nlaPutU32 size len
  let len ← nlaPutU32 size len
  nlaNestStart size len

/-- the loop over the ports: a port for which no entry can be begun is left out -/
def putPorts (size : Nat) : List Portmap → Nat → Except Nat (Nat × List (Option (CStr × UInt32)))
  | [], len => .ok (len, [])
  | p :: l, len =>
    match nlaNestStart size len with
    | .error _ => putPorts size l len
    | .ok len =>
      match p.s with
      | none => do
        let r ← putPorts size l len
        pure (r.1, none :: r.2)
      | some s => do
        let len ← nlaPutString size s len
        let len ← nlaPutU32 size len
        let r ← putPorts size l len
        pure (r.1, some (s, p.virt) :: r.2)

/-- `false` is an error; without a header there is nothing for `genlmsg_cancel` to take back -/
def swconfigSendSwitch (msg : Skb) (dev : SwitchDev) : Skb × Bool :=
  let hdr := genlmsgPut msg.size msg.len
  match putHead msg.size dev (hdr.getD msg.len) with
  | .error len => ({ msg with len := if hdr.isSome then msg.len else len }, false)
  | .ok len =>
    match putPorts msg.size dev.portmap len with
    | .error len => ({ msg with len := if hdr.isSome then msg.len else len }, false)
    | .ok (len, portmap) => ({ msg with len := len, msgs := msg.msgs ++ [⟨dev.head, portmap⟩] }, true)

/-- the loop over the list; `idx` is the number of the devices before -/
def dumpFrom (start : Nat) : List SwitchDev → Nat → Skb → Skb × Nat
  | [], idx, skb => (skb, idx)
  | dev :: l, idx, skb =>
    if idx + 1 ≤ start then dumpFrom start l (idx + 1) skb
    else
      let r := swconfigSendSwitch skb dev
      if r.2 then dumpFrom start l (idx + 1) r.1 else (r.1, idx + 1)

/-- one call with an empty buffer: the buffer, and the new `cb->args[0]` -/
def swconfigDumpSwitches (devs : List SwitchDev) (start size : Nat) : Skb × Nat :=
  dumpFrom start devs 0 ⟨size, 0, []⟩

/-- at most `fuel` calls, the first one with the buffer `k`, until one adds nothing -/
def dumps (devs : List SwitchDev) (bufs : Nat → Nat) : Nat → Nat → Nat → Option (List Msg)
  | 0, _, _ => none
  | fuel + 1, k, start =>
    let r := swconfigDumpSwitches devs start (bufs k)
    if r.1.len = 0 then some [] else (dumps devs bufs fuel (k + 1) r.2).map (r.1.msgs ++ ·)

/-! ## sizes -/

/-- the attributes of a record before its ports -/
def headPayloads (dev : SwitchDev) : List Nat :=
  [4, dev.devname.length + 1, dev.netAlias.length + 1, dev.name.length + 1, 4, 4, 4, 0]

def headSize (dev : SwitchDev) : Nat := ((headPayloads dev).map nlaTotalSize).sum

def portSize (p : Portmap) : Nat :=
  match p.s with
  | none => 4
  | some s => 4 + nlaTotalSize (s.length + 1) + 8

/-- the room behind the ports -/
def portsRoom : Nat → List Portmap → Option Nat
  | room, [] => some room
  | room, p :: l =>
    if room < 4 then portsRoom room l
    else if room < portSize p then none
    else portsRoom (room - portSize p) l

/-- the room behind the record, if it fits -/
def recordRoom (room : Nat) (dev : SwitchDev) : Option Nat :=
  if room < headerSize + headSize dev then none
  else portsRoom (room - (headerSize + headSize dev)) dev.portmap

/-- the records fit, one behind the other -/
def Fit : Nat → List SwitchDev → Prop
  | _, [] => True
  | room, dev :: l => ∃ r, recordRoom room dev = some r ∧ Fit r l

/-- the size of a whole record -/
def recordSize (dev : SwitchDev) : Nat :=
  headerSize + headSize dev + (dev.portmap.map portSize).sum

theorem portsRoom_of_size {l : List Portmap} : ∀ {room : Nat}, (l.map portSize).sum ≤ room →
    portsRoom room l = some (room - (l.map portSize).sum) := by
  induction l with
  | nil => exact fun _ => rfl
  | cons p l ih =>
    intro room h
    rw [List.map_cons, List.sum_cons] at h ⊢
    have hp : 4 ≤ portSize p := by
      unfold portSize
      split <;> omega
    unfold portsRoom
    rw [if_neg (by omega), if_neg (by omega), ih (by omega), Nat.sub_sub]

/-- it is enough that the whole records fit -/
theorem fit_of_size {devs : List SwitchDev} : ∀ {room : Nat}, (devs.map recordSize).sum ≤ room →
    Fit room devs := by
  induction devs with
  | nil => exact fun _ => trivial
  | cons dev devs ih =>
    intro room h
    rw [List.map_cons, List.sum_cons] at h
    have hsize : recordSize dev = headerSize + headSize dev + (dev.portmap.map portSize).sum := rfl
    refine ⟨room - (headerSize + headSize dev) - (dev.portmap.map portSize).sum, ?_, ih (by omega)⟩
    unfold recordRoom
    rw [if_neg (by omega), portsRoom_of_size (by omega)]

/-! ## attributes in a row -/

def putAll (size : Nat) (payloads : List Nat) (len : Nat) : Except Nat Nat :=
  payloads.foldlM (fun len n => nlaPut size n len) len

theorem putHead_eq (size : Nat) (dev : SwitchDev) (len : Nat) :
    putHead size dev len = putAll size (headPayloads dev) len := by
  unfold putHead putAll headPayloads nlaPutU32 nlaPutString nlaNestStart
  simp only [List.foldlM_cons, List.foldlM_nil, bind_pure]

theorem nlaPut_ok {size n len : Nat} (h : len + nlaTotalSize n ≤ size) :
    nlaPut size n len = .ok (len + nlaTotalSize n) := by
  unfold nlaPut
  rw [if_neg (by omega)]

theorem nlaPut_error {size n len : Nat} (hl : len ≤ size) (h : size < len + nlaTotalSize n) :
    nlaPut size n len = .error len := by
  unfold nlaPut
  rw [if_pos (by omega)]

theorem putAll_ok {size : Nat} {ns : List Nat} {len : Nat}
    (h : len + (ns.map nlaTotalSize).sum ≤ size) :
    putAll size ns len = .ok (len + (ns.map nlaTotalSize).sum) := by
  induction ns generalizing len with
  | nil => rfl
  | cons n ns ih =>
    rw [List.map_cons, List.sum_cons] at h ⊢
    show (nlaPut size n len >>= putAll size ns) = _
    rw [nlaPut_ok (by omega)]
    show putAll size ns (len + nlaTotalSize n) = _
    rw [ih (by omega), Nat.add_assoc]

theorem putAll_error {size : Nat} {ns : List Nat} {len : Nat} (hl : len ≤ size)
    (h : size < len + (ns.map nlaTotalSize).sum) : ∃ e, putAll size ns len = .error e := by
  induction ns generalizing len with
  | nil =>
    rw [List.map_nil, List.sum_nil] at h
    omega
  | cons n ns ih =>
    rw [List.map_cons, List.sum_cons] at h
    show ∃ e, (nlaPut size n len >>= putAll size ns) = .error e
    by_cases hn : len + nlaTotalSize n ≤ size
    · rw [nlaPut_ok hn]
      exact ih hn (by omega)
    · rw [nlaPut_error hl (by omega)]
      exact ⟨len, rfl⟩

theorem le_nlaTotalSize (n : Nat) : 4 + n ≤ nlaTotalSize n := by
  unfold nlaTotalSize
  omega

/-- the ports either all get to the end, or one of them does not fit -/
theorem putPorts_cases {size : Nat} (l : List Portmap) : ∀ len, len ≤ size →
    (portsRoom (size - len) l = none ∧ ∃ e, putPorts size l len = .error e) ∨
    ∃ len' ms, putPorts size l len = .ok (len', ms) ∧ len ≤ len' ∧ len' ≤ size ∧
      portsRoom (size - len) l = some (size - len') := by
  induction l with
  | nil => exact fun len hl => .inr ⟨len, [], rfl, le_refl _, hl, rfl⟩
  | cons p l ih =>
    intro len hl
    unfold putPorts portsRoom nlaNestStart
    have h0 : nlaTotalSize 0 = 4 := rfl
    by_cases hr : size - len < 4
    · rw [nlaPut_error hl (by omega), if_pos hr]
      exact ih len hl
    · rw [nlaPut_ok (by omega), if_neg hr, h0]
      dsimp only
      unfold portSize
      cases hp : p.s with
      | none =>
        dsimp only
        rw [if_neg (by omega), Nat.sub_sub]
        obtain ⟨h1, e, h2⟩ | ⟨len', ms, h1, h2, h3, h4⟩ := ih (len + 4) (by omega)
        · rw [h2]
          exact .inl ⟨h1, e, rfl⟩
        · rw [h1]
          exact .inr ⟨len', none :: ms, rfl, by omega, h3, h4⟩
      | some s =>
        dsimp only
        have hall : ∀ f : Nat → Except Nat (Nat × List (Option (CStr × UInt32))),
            (nlaPutString size s (len + 4) >>= fun len => nlaPutU32 size len >>= f)
              = putAll size [s.length + 1, 4] (len + 4) >>= f := by
          intro f
          unfold putAll nlaPutU32 nlaPutString
          simp only [List.foldlM_cons, List.foldlM_nil, bind_pure, bind_assoc]
        have hsum : ([s.length + 1, 4].map nlaTotalSize).sum = nlaTotalSize (s.length + 1) + 8 := rfl
        rw [hall]
        by_cases hs : size - len < 4 + nlaTotalSize (s.length + 1) + 8
        · rw [if_pos hs]
          obtain ⟨e, he⟩ := @putAll_error size [s.length + 1, 4] (len + 4) (by omega)
            (by rw [hsum]; omega)
          rw [he]
          exact .inl ⟨rfl, e, rfl⟩
        · have hroom : size - len - (4 + nlaTotalSize (s.length + 1) + 8)
              = size - (len + 4 + (nlaTotalSize (s.length + 1) + 8)) := by omega
          rw [if_neg hs, putAll_ok (by rw [hsum]; omega), hsum, hroom]
          obtain ⟨h1, e, h2⟩ | ⟨len', ms, h1, h2, h3, h4⟩ :=
            ih (len + 4 + (nlaTotalSize (s.length + 1) + 8)) (by omega)
          · refine .inl ⟨h1, e, ?_⟩
            show (putPorts size l _ >>= _) = _
            rw [h2]
            rfl
          · refine .inr ⟨len', some (s, p.virt) :: ms, ?_, by omega, h3, h4⟩
            show (putPorts size l _ >>= _) = _
            rw [h1]
            rfl

/-! ## one record -/

/-- without room for a header there is none for the attributes -/
theorem le_headSize (dev : SwitchDev) : headerSize ≤ headSize dev := by
  have h1 := le_nlaTotalSize (dev.devname.length + 1)
  have h2 := le_nlaTotalSize (dev.netAlias.length + 1)
  have h3 : nlaTotalSize 4 = 8 := rfl
  show 20 ≤ nlaTotalSize 4 + (nlaTotalSize _ + (nlaTotalSize _ + (_ + (_ + (_ + (_ + (_ + 0)))))))
  omega

/-- a record fits as its sizes say, or it leaves no message -/
theorem swconfigSendSwitch_cases {msg : Skb} (hl : msg.len ≤ msg.size) (dev : SwitchDev) :
    (recordRoom (msg.size - msg.len) dev = none ∧ (swconfigSendSwitch msg dev).2 = false ∧
      (swconfigSendSwitch msg dev).1.msgs = msg.msgs) ∨
    ∃ len m, swconfigSendSwitch msg dev = ({ msg with len := len, msgs := msg.msgs ++ [m] }, true) ∧
      m.head = dev.head ∧ msg.len < len ∧ len ≤ msg.size ∧
      recordRoom (msg.size - msg.len) dev = some (msg.size - len) := by
  have hhead := le_headSize dev
  unfold swconfigSendSwitch recordRoom genlmsgPut
  dsimp only
  rw [putHead_eq]
  by_cases hs : msg.size - msg.len < headerSize + headSize dev
  · -- the head does not fit, with or without a header
    obtain ⟨e, he⟩ : ∃ e, putAll msg.size (headPayloads dev)
        ((if msg.size - msg.len < headerSize then none else some (msg.len + headerSize)).getD msg.len)
          = .error e := by
      by_cases hh : msg.size - msg.len < headerSize
      · rw [if_pos hh]
        refine putAll_error hl ?_
        show msg.size < msg.len + headSize dev
        omega
      · rw [if_neg hh]
        refine putAll_error (show msg.len + headerSize ≤ msg.size by omega) ?_
        show msg.size < msg.len + headerSize + headSize dev
        omega
    rw [he, if_pos hs]
    exact .inl ⟨rfl, rfl, rfl⟩
  · have hok : putAll msg.size (headPayloads dev) (msg.len + headerSize)
        = .ok (msg.len + headerSize + headSize dev) :=
      putAll_ok (by show msg.len + headerSize + headSize dev ≤ msg.size; omega)
    rw [if_neg (show ¬ msg.size - msg.len < headerSize by omega), if_neg hs, Option.getD_some, hok]
    dsimp only
    have hroom : msg.size - msg.len - (headerSize + headSize dev)
        = msg.size - (msg.len + headerSize + headSize dev) := by omega
    rw [hroom]
    obtain ⟨h1, e, h2⟩ | ⟨len, ms, h1, h2, h3, h4⟩ :=
      putPorts_cases dev.portmap (msg.len + headerSize + headSize dev)
        (show msg.len + headerSize + headSize dev ≤ msg.size by omega)
    · rw [h2]
      exact .inl ⟨h1, rfl, rfl⟩
    · rw [h1]
      have hz : 0 < headerSize := by decide
      exact .inr ⟨len, ⟨dev.head, ms⟩, rfl, rfl, by omega, h3, h4⟩

/-! ## one call -/

/-- the devices before the position are passed over -/
theorem dumpFrom_skip (start : Nat) (l : List SwitchDev) :
    ∀ idx skb, dumpFrom start l idx skb
      = dumpFrom start (l.drop (start - idx)) (idx + min (start - idx) l.length) skb := by
  induction l with
  | nil =>
    intro idx skb
    rw [List.drop_nil, List.length_nil, Nat.min_zero]
    rfl
  | cons dev l ih =>
    intro idx skb
    by_cases h : idx + 1 ≤ start
    · have hd : start - idx = (start - (idx + 1)) + 1 := by omega
      rw [hd, List.drop_succ_cons, List.length_cons]
      have hm : idx + min (start - (idx + 1) + 1) (l.length + 1)
          = idx + 1 + min (start - (idx + 1)) l.length := by omega
      rw [hm, ← ih]
      exact if_pos h
    · have hd : start - idx = 0 := by omega
      rw [hd, Nat.zero_min]
      rfl

/-- behind the position: all the devices are reported, or one is passed over -/
theorem dumpFrom_cases (start : Nat) (l : List SwitchDev) : ∀ (idx : Nat) (skb : Skb),
    start ≤ idx → skb.len ≤ skb.size →
    (Fit (skb.size - skb.len) l ∧ (dumpFrom start l idx skb).2 = idx + l.length ∧
      (dumpFrom start l idx skb).1.msgs.map Msg.head = skb.msgs.map Msg.head ++ l.map SwitchDev.head ∧
      (l = [] ∨ 0 < (dumpFrom start l idx skb).1.len)) ∨
    (¬ Fit (skb.size - skb.len) l ∧ ∃ k, k < l.length ∧
      (dumpFrom start l idx skb).2 = idx + k + 1 ∧
      (dumpFrom start l idx skb).1.msgs.length = skb.msgs.length + k) := by
  induction l with
  | nil =>
    intro idx skb hs hl
    exact .inl ⟨trivial, rfl, by rw [List.map_nil, List.append_nil]; rfl, .inl rfl⟩
  | cons dev l ih =>
    intro idx skb hs hl
    have hstep : dumpFrom start (dev :: l) idx skb
        = if (swconfigSendSwitch skb dev).2 then
            dumpFrom start l (idx + 1) (swconfigSendSwitch skb dev).1
          else ((swconfigSendSwitch skb dev).1, idx + 1) := if_neg (by omega)
    rw [hstep]
    obtain ⟨h1, h2, h3⟩ | ⟨len, m, h1, h2, h3, h4, h5⟩ := swconfigSendSwitch_cases hl dev
    · rw [h2, if_neg Bool.false_ne_true]
      refine .inr ⟨fun ⟨r, hr, _⟩ => ?_, 0, Nat.succ_pos _, rfl, by rw [h3]; rfl⟩
      rw [h1] at hr
      cases hr
    · rw [h1, if_pos rfl]
      have hfit : Fit (skb.size - skb.len) (dev :: l) ↔ Fit (skb.size - len) l := by
        show (∃ r, recordRoom _ dev = some r ∧ Fit r l) ↔ _
        rw [h5]
        constructor
        · rintro ⟨r, hr, hf⟩
          rw [Option.some.inj hr]
          exact hf
        · exact fun hf => ⟨_, rfl, hf⟩
      rw [hfit, List.length_cons]
      obtain ⟨i1, i2, i3, i4⟩ | ⟨i1, k, i2, i3, i4⟩ :=
        ih (idx + 1) { skb with len := len, msgs := skb.msgs ++ [m] } (by omega) h4
      · refine .inl ⟨i1, by rw [i2]; omega, ?_, ?_⟩
        · rw [i3, List.map_append, List.map_singleton, h2, List.append_assoc]
          rfl
        · rcases i4 with rfl | i4
          · exact .inr (Nat.lt_of_le_of_lt (Nat.zero_le _) h3)
          · exact .inr i4
      · refine .inr ⟨i1, k + 1, by omega, by rw [i3]; omega, ?_⟩
        rw [i4, List.length_append, List.length_singleton]
        omega

/-- a call from the position `start` on -/
theorem swconfigDumpSwitches_cases (devs : List SwitchDev) {start size : Nat} (h : start ≤ devs.length) :
    (Fit size (devs.drop start) ∧ (swconfigDumpSwitches devs start size).2 = devs.length ∧
      (swconfigDumpSwitches devs start size).1.msgs.map Msg.head
        = (devs.drop start).map SwitchDev.head ∧
      (start = devs.length ∨ 0 < (swconfigDumpSwitches devs start size).1.len)) ∨
    (¬ Fit size (devs.drop start) ∧ ∃ k, start + k < devs.length ∧
      (swconfigDumpSwitches devs start size).2 = start + k + 1 ∧
      (swconfigDumpSwitches devs start size).1.msgs.length = k) := by
  unfold swconfigDumpSwitches
  rw [dumpFrom_skip, Nat.sub_zero, Nat.zero_add, Nat.min_eq_left h]
  obtain ⟨h1, h2, h3, h4⟩ | ⟨h1, k, h2, h3, h4⟩ :=
    dumpFrom_cases start (devs.drop start) start ⟨size, 0, []⟩ (le_refl _) (Nat.zero_le _)
  · refine .inl ⟨h1, ?_, h3, ?_⟩
    · rw [h2, List.length_drop]
      omega
    · rcases h4 with h4 | h4
      · have hlen := congrArg List.length h4
        rw [List.length_drop, List.length_nil] at hlen
        exact .inl (by omega)
      · exact .inr h4
  · rw [List.length_drop] at h2
    refine .inr ⟨h1, k, by omega, h3, ?_⟩
    rw [h4]
    exact Nat.zero_add k

/-! ## the whole dump -/

/-- there is nothing to report behind the last device -/
theorem dumps_end (devs : List SwitchDev) (bufs : Nat → Nat) (fuel k : Nat) :
    dumps devs bufs (fuel + 1) k devs.length = some [] := by
  have hlen : (swconfigDumpSwitches devs devs.length (bufs k)).1.len = 0 := by
    unfold swconfigDumpSwitches
    rw [dumpFrom_skip, Nat.sub_zero, List.drop_length]
    rfl
  exact if_pos hlen

/-- the dump comes to an end, with one message for each device at most -/
theorem dumps_le (devs : List SwitchDev) (bufs : Nat → Nat) : ∀ (fuel k start : Nat),
    start ≤ devs.length → devs.length - start < fuel →
    ∃ msgs, dumps devs bufs fuel k start = some msgs ∧ msgs.length ≤ devs.length - start := by
  intro fuel
  induction fuel with
  | zero => exact fun k start _ h => absurd h (Nat.not_lt_zero _)
  | succ fuel ih =>
    intro k start hs hf
    rcases Nat.eq_or_lt_of_le hs with rfl | hlt
    · exact ⟨[], dumps_end devs bufs fuel k, Nat.zero_le _⟩
    unfold dumps
    dsimp only
    by_cases hz : (swconfigDumpSwitches devs start (bufs k)).1.len = 0
    · rw [if_pos hz]
      exact ⟨[], rfl, Nat.zero_le _⟩
    · rw [if_neg hz]
      obtain ⟨-, h2, h3, -⟩ | ⟨-, j, h1, h2, h3⟩ := @swconfigDumpSwitches_cases devs start (bufs k) hs
      · obtain ⟨msgs, hm, hle⟩ := ih (k + 1) devs.length (le_refl _) (by omega)
        have h3l := congrArg List.length h3
        rw [List.length_map, List.length_map, List.length_drop] at h3l
        rw [h2, hm]
        refine ⟨_, rfl, ?_⟩
        rw [List.length_append]
        omega
      · obtain ⟨msgs, hm, hle⟩ := ih (k + 1) (start + j + 1) (by omega) (by omega)
        rw [h2, hm]
        refine ⟨_, rfl, ?_⟩
        rw [List.length_append]
        omega

/-- **The dump ends, and it reports every switch once and in order exactly if all the records fit
into the first buffer.** -/
theorem dumps_iff (devs : List SwitchDev) (bufs : Nat → Nat) :
    ∃ msgs, dumps devs bufs (devs.length + 1) 0 0 = some msgs ∧
      (msgs.map Msg.head = devs.map SwitchDev.head ↔ Fit (bufs 0) devs) := by
  rcases Nat.eq_zero_or_pos devs.length with h0 | hpos
  · obtain rfl := List.eq_nil_of_length_eq_zero h0
    exact ⟨[], rfl, iff_of_true rfl trivial⟩
  unfold dumps
  dsimp only
  obtain ⟨h1, h2, h3, h4⟩ | ⟨h1, j, h2, h3, h4⟩ :=
    @swconfigDumpSwitches_cases devs 0 (bufs 0) (Nat.zero_le devs.length)
  · rw [List.drop_zero] at h1 h3
    rw [if_neg (by omega), h2]
    obtain ⟨n, hn⟩ : ∃ n, devs.length = n + 1 := ⟨devs.length - 1, by omega⟩
    have hend := dumps_end devs bufs n (0 + 1)
    rw [← hn] at hend
    rw [hend]
    refine ⟨_, rfl, iff_of_true ?_ h1⟩
    show ((swconfigDumpSwitches devs 0 (bufs 0)).1.msgs ++ []).map Msg.head = _
    rw [List.append_nil, h3]
  · rw [List.drop_zero] at h1
    by_cases hz : (swconfigDumpSwitches devs 0 (bufs 0)).1.len = 0
    · rw [if_pos hz]
      refine ⟨[], rfl, iff_of_false (fun h => ?_) h1⟩
      have hl := congrArg List.length h
      rw [List.length_map, List.length_map, List.length_nil] at hl
      omega
    · rw [if_neg hz, h3]
      obtain ⟨msgs, hm, hle⟩ := dumps_le devs bufs devs.length (0 + 1) (0 + j + 1) (by omega) (by omega)
      rw [hm]
      refine ⟨_, rfl, iff_of_false (fun h => ?_) h1⟩
      have hl := congrArg List.length h
      rw [List.length_map, List.length_map, List.length_append] at hl
      omega

/-- a switch without ports -/
def bareSwitch (id i : Nat) : SwitchDev where
  name := devname 0
  netAlias := devname 1
  ports := 0
  vlans := 16
  cpuPort := 0
  portLink := false
  id := id
  devname := devname i
  portmap := []
  portmap_length := rfl

/-- two switches, and buffers for the record of one: only the first one is reported -/
theorem second_lost : recordSize (bareSwitch 1 0) = 92 ∧ recordSize (bareSwitch 2 1) = 92 ∧
    (dumps [bareSwitch 1 0, bareSwitch 2 1] (fun _ => 92) 3 0 0).map (·.map Msg.head)
      = some [(bareSwitch 1 0).head] ∧
    ¬ ∃ msgs, dumps [bareSwitch 1 0, bareSwitch 2 1] (fun _ => 92) 3 0 0 = some msgs ∧
      msgs.map Msg.head = [bareSwitch 1 0, bareSwitch 2 1].map SwitchDev.head := by
  have hd : (dumps [bareSwitch 1 0, bareSwitch 2 1] (fun _ => 92) 3 0 0).map (·.map Msg.head)
      = some [(bareSwitch 1 0).head] := by decide
  refine ⟨by decide, by decide, hd, ?_⟩
  rintro ⟨msgs, hm, he⟩
  rw [hm, Option.map_some, he] at hd
  exact absurd (congrArg List.length (Option.some.inj hd)) (by decide)

end Swconfig
