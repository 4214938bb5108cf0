import Firmware.Bqtool.Commands

/-!
# bqtool: a command on the gauge

`bqfs_exec_cmd` uses no byte of the buffer but those of the command's own line.

* `fetch`, `Command.exec`, `Command.tries` a command, from its line alone;
* `readTries_fetch` `do_read` leaves the register alone, and what it got behind it;
* `bqfsExecCmd_holds`, `execTries_holds` what the code does is the command.
-/

set_option linter.unusedVariables false

namespace Bqtool
open Img

section
variable {σ : Type} (bus : Bus σ) (cfg : Config)

/-- up to `n` reads -/
def fetch (addr reg len : UInt8) : Nat → σ → Option (List UInt8) × σ
  | 0, st => (none, st)
  | n + 1, st =>
    let (ok, d, st) := bus.read st addr reg len
    if ok then (some d.toList, st) else fetch addr reg len n (bus.sleepMs st 10)

/-- the first byte is taken for the slave's address in any case -/
def Command.exec : Command → σ → Bool × σ
  | .read bytes len, st =>
    let (d, st) := fetch bus (bytes.getD 0 0) (bytes.getD (cfg.base - 1) 0) (len - UInt8.ofNat cfg.base) 4 st
    (d.isSome, st)
  | .write bytes, st => writeTries bus (bytes.getD 0 0) (bytes.drop (cfg.base - 1)) 4 st
  | .compare bytes, st =>
    let (d, st) := fetch bus (bytes.getD 0 0) (bytes.getD (cfg.base - 1) 0)
      (UInt8.ofNat (bytes.length - cfg.base)) 4 st
    (d == some (bytes.drop cfg.base), st)
  | .delay ms, st => (true, bus.sleepMs st ms.toNat)

def Command.tries (c : Command) : Nat → σ → Bool × σ
  | 0, st => (false, st)
  | n + 1, st =>
    let (ok, st) := c.exec bus cfg (bus.sleepMs st 20)
    if ok then (true, st) else c.tries n st

end

variable {σ : Type} {bus : Bus σ} {cfg : Config}

/-! ## `do_read` -/

theorem take_poke_before (m d : List UInt8) {off : Nat} (h : off ≤ m.length) :
    (poke m off d).take off = m.take off :=
  List.take_left' (by rw [List.length_take]; omega)

theorem readTries_fetch (bus : Bus σ) (addr : UInt8) {pos : Nat} {len : UInt8} {n : Nat} :
    ∀ (st : σ) {buf : List UInt8}, pos + 1 + len.toNat ≤ buf.length →
    ∃ buf', readTries bus addr pos len n st buf
        = ((fetch bus addr (buf.getD pos 0) len n st).1.isSome, buf',
            (fetch bus addr (buf.getD pos 0) len n st).2)
      ∧ buf'.length = buf.length ∧ buf'.take (pos + 1) = buf.take (pos + 1)
      ∧ ∀ d, (fetch bus addr (buf.getD pos 0) len n st).1 = some d → slice buf' (pos + 1) len.toNat = d := by
  induction n with
  | zero =>
    intro st buf h
    exact ⟨buf, rfl, rfl, rfl, fun d hd => nomatch hd⟩
  | succ n ih =>
    intro st buf h
    unfold readTries fetch
    obtain ⟨ok, d, st'⟩ := bus.read st addr (buf.getD pos 0) len
    dsimp only
    have hd : d.toList.length = len.toNat := d.length_toList
    have hfit : pos + 1 + d.toList.length ≤ buf.length := by omega
    have hlen := poke_length buf (pos + 1) d.toList hfit
    have htake : (poke buf (pos + 1) d.toList).take (pos + 1) = buf.take (pos + 1) :=
      take_poke_before buf d.toList (by omega)
    cases ok with
    | true =>
      refine ⟨poke buf (pos + 1) d.toList, rfl, hlen, htake, fun e he => ?_⟩
      have hs := slice_poke_self buf (pos + 1) d.toList hfit
      rw [hd] at hs
      rw [← Option.some.inj he]
      exact hs
    | false =>
      have hreg : (poke buf (pos + 1) d.toList).getD pos 0 = buf.getD pos 0 := by
        rw [poke_getD _ _ _ _ _ hfit, if_neg (by omega)]
      have hfit' : pos + 1 + len.toNat ≤ (poke buf (pos + 1) d.toList).length := by
        rw [hlen]
        exact h
      obtain ⟨buf', hr, hl, ht, hs⟩ := ih (bus.sleepMs st' 10) hfit'
      rw [hreg] at hr hs
      exact ⟨buf', hr, hl.trans hlen, ht.trans htake, hs⟩

/-! ## `bqfs_exec_cmd` -/

theorem base_toNat (cfg : Config) : (UInt8.ofNat cfg.base).toNat = cfg.base := by
  have h := base_le cfg
  rw [uint8_fits]
  omega

/-- `cmd->len - cmd_base_len` -/
theorem dataLen_toNat (cfg : Config) {len : UInt8} (h : cfg.base ≤ len.toNat) :
    (len - UInt8.ofNat cfg.base).toNat = len.toNat - cfg.base := by
  have hb := base_toNat cfg
  rw [UInt8.toNat_sub_of_le, hb]
  rw [UInt8.le_iff_toNat_le, hb]
  exact h

theorem getD_take {m bytes : List UInt8} {n i : Nat} (h : m.take n = bytes) (hi : i < n) :
    m.getD i 0 = bytes.getD i 0 := by
  rw [← h, List.getD_eq_getElem?_getD, List.getD_eq_getElem?_getD, List.getElem?_take_of_lt hi]

theorem reaches_some {buf : List UInt8} {n : Nat} (h : n ≤ buf.length) : reaches buf n = some () := if_pos h

/-- the length of the data as it is counted of the line -/
theorem dataLen_eq {len : UInt8} {n : Nat} (hlen : len.toNat = n) (h : cfg.base < n) :
    len - UInt8.ofNat cfg.base = UInt8.ofNat (n - cfg.base) ∧ (len - UInt8.ofNat cfg.base).toNat = n - cfg.base := by
  have hd : (len - UInt8.ofNat cfg.base).toNat = len.toNat - cfg.base := dataLen_toNat cfg (by omega)
  have h256 := len.toNat_lt
  have hfit := (uint8_fits (n - cfg.base)).mpr (by omega)
  rw [hlen] at hd
  exact ⟨UInt8.toNat_inj.mp (hd.trans hfit.symm), hd⟩

/-- the register and the data of a line -/
theorem slice_take {m bytes : List UInt8} {n i k : Nat} (h : m.take n = bytes) (hk : i + k = n) :
    slice m i k = bytes.drop i := by
  rw [← h, List.drop_take, ← hk, Nat.add_sub_cancel_left]
  rfl

section
variable (bus : Bus σ) (link : Link σ) {cmd : Cmd}

theorem exec_read (hbuf : cmd.buf.length = cfg.maxLen.toNat) {bytes : List UInt8} {len : UInt8}
    (h : cmd.Holds cfg (.read bytes len)) :
    ∃ addr cmd', bqfsExecCmd bus cfg link cmd = some (((Command.read bytes len).exec bus cfg link.dev).1,
        ⟨((Command.read bytes len).exec bus cfg link.dev).2, addr⟩, cmd')
      ∧ cmd'.buf.length = cfg.maxLen.toNat ∧ cmd'.Holds cfg (.read bytes len) := by
  have hbase := base_le cfg
  obtain ⟨hc, hbytes, hlen, hle, hmax⟩ := h
  have hd := dataLen_toNat cfg hle
  have hfit : cfg.base - 1 + 1 + (len - UInt8.ofNat cfg.base).toNat ≤ cmd.buf.length := by omega
  obtain ⟨buf', hr, hl, ht, -⟩ := readTries_fetch bus (bytes.getD 0 0) (n := 4) link.dev hfit
  rw [getD_take hbytes (i := cfg.base - 1) (by omega)] at hr
  refine ⟨bytes.getD 0 0, { cmd with buf := buf' }, ?_, hl.trans hbuf, hc, ?_, hlen, hle, hmax⟩
  · unfold bqfsExecCmd doRead
    rw [reaches_some (by omega), if_pos hc, hlen, reaches_some hfit, getD_take hbytes (i := 0) (by omega)]
    rw [hr]
    rfl
  · rw [Nat.sub_add_cancel hbase.1] at ht
    exact ht.trans hbytes

theorem exec_write (hbuf : cmd.buf.length = cfg.maxLen.toNat) {bytes : List UInt8}
    (h : cmd.Holds cfg (.write bytes)) :
    ∃ addr, bqfsExecCmd bus cfg link cmd = some (((Command.write bytes).exec bus cfg link.dev).1,
        ⟨((Command.write bytes).exec bus cfg link.dev).2, addr⟩, cmd) := by
  have hbase := base_le cfg
  obtain ⟨hc, hbytes, hlen, hlt, hmax⟩ := h
  obtain ⟨-, hd⟩ := dataLen_eq hlen hlt
  have hmsg : slice cmd.buf (cfg.base - 1) ((cmd.len - UInt8.ofNat cfg.base).toNat + 1)
      = bytes.drop (cfg.base - 1) := slice_take hbytes (by omega)
  refine ⟨bytes.getD 0 0, ?_⟩
  unfold bqfsExecCmd doWrite
  rw [reaches_some (by omega), if_neg (by rw [hc]; decide), if_pos hc, reaches_some (by omega),
    getD_take hbytes (i := 0) (by omega), hmsg]
  rfl

theorem exec_compare (hbuf : cmd.buf.length = cfg.maxLen.toNat) {bytes : List UInt8}
    (h : cmd.Holds cfg (.compare bytes)) :
    ∃ addr, bqfsExecCmd bus cfg link cmd = some (((Command.compare bytes).exec bus cfg link.dev).1,
        ⟨((Command.compare bytes).exec bus cfg link.dev).2, addr⟩, cmd) := by
  have hbase := base_le cfg
  obtain ⟨hc, hbytes, hlen, hlt, hmax⟩ := h
  obtain ⟨hd, hdn⟩ := dataLen_eq hlen hlt
  have hz : (List.replicate cfg.maxLen.toNat (0 : UInt8)).length = cfg.maxLen.toNat := List.length_replicate
  have hreg : 0 + [cmd.buf.getD (cfg.base - 1) 0].length ≤ (List.replicate cfg.maxLen.toNat (0 : UInt8)).length := by
    rw [hz, List.length_singleton]
    omega
  have hl := poke_length _ _ _ hreg
  rw [hz] at hl
  have hfit : 0 + 1 + (cmd.len - UInt8.ofNat cfg.base).toNat
      ≤ (poke (List.replicate cfg.maxLen.toNat (0 : UInt8)) 0 [cmd.buf.getD (cfg.base - 1) 0]).length := by omega
  have hget : (poke (List.replicate cfg.maxLen.toNat (0 : UInt8)) 0 [cmd.buf.getD (cfg.base - 1) 0]).getD 0 0
      = bytes.getD (cfg.base - 1) 0 := by
    rw [poke_getD _ _ _ _ _ hreg, if_pos ⟨Nat.le_refl _, by rw [List.length_singleton]; omega⟩]
    exact getD_take hbytes (by omega)
  have hdata : slice cmd.buf (cfg.base - 1 + 1) (cmd.len - UInt8.ofNat cfg.base).toNat
      = bytes.drop cfg.base := by
    rw [Nat.sub_add_cancel hbase.1]
    exact slice_take hbytes (by omega)
  obtain ⟨buf', hr, -, -, hs⟩ := readTries_fetch bus (bytes.getD 0 0) (n := 4) link.dev hfit
  rw [hget] at hr hs
  have hexec : (Command.compare bytes).exec bus cfg link.dev
      = ((fetch bus (bytes.getD 0 0) (bytes.getD (cfg.base - 1) 0) (cmd.len - UInt8.ofNat cfg.base) 4
          link.dev).1 == some (bytes.drop cfg.base),
        (fetch bus (bytes.getD 0 0) (bytes.getD (cfg.base - 1) 0) (cmd.len - UInt8.ofNat cfg.base) 4
          link.dev).2) := by
    rw [hd]
    rfl
  refine ⟨bytes.getD 0 0, ?_⟩
  rw [hexec]
  unfold bqfsExecCmd doRead
  rw [reaches_some (by omega), if_neg (by rw [hc]; decide), if_neg (by rw [hc]; decide), if_pos hc,
    reaches_some (by omega), store_eq_some.mpr ⟨hreg, rfl⟩, getD_take hbytes (i := 0) (by omega)]
  show (reaches (poke (List.replicate cfg.maxLen.toNat (0 : UInt8)) 0 [cmd.buf.getD (cfg.base - 1) 0])
    (1 + (cmd.len - UInt8.ofNat cfg.base).toNat)).bind _ = _
  rw [reaches_some (by omega), Option.bind_some, hr, hdata]
  revert hs
  cases (fetch bus (bytes.getD 0 0) (bytes.getD (cfg.base - 1) 0) (cmd.len - UInt8.ofNat cfg.base) 4
    link.dev).1 with
  | none => exact fun _ => rfl
  | some d =>
    intro hs
    dsimp only
    rw [show slice buf' 1 (cmd.len - UInt8.ofNat cfg.base).toNat = d from hs d rfl]
    rfl

end

/-- **A command on the gauge** is what its line says. -/
theorem bqfsExecCmd_holds (bus : Bus σ) (link : Link σ) {cmd : Cmd} {c : Command}
    (hbuf : cmd.buf.length = cfg.maxLen.toNat) (h : cmd.Holds cfg c) :
    ∃ addr cmd', bqfsExecCmd bus cfg link cmd
        = some ((c.exec bus cfg link.dev).1, ⟨(c.exec bus cfg link.dev).2, addr⟩, cmd')
      ∧ cmd'.buf.length = cfg.maxLen.toNat ∧ cmd'.Holds cfg c := by
  cases c with
  | read bytes len => exact exec_read bus link hbuf h
  | write bytes =>
    obtain ⟨addr, he⟩ := exec_write bus link hbuf h
    exact ⟨addr, cmd, he, hbuf, h⟩
  | compare bytes =>
    obtain ⟨addr, he⟩ := exec_compare bus link hbuf h
    exact ⟨addr, cmd, he, hbuf, h⟩
  | delay ms =>
    obtain ⟨hc, hdelay, hpos⟩ := id h
    refine ⟨cmd.buf.getD 0 0, cmd, ?_, hbuf, h⟩
    unfold bqfsExecCmd
    rw [reaches_some (by omega), hc, hdelay]
    rfl

/-- what cannot be executed is left open -/
theorem bqfsExecCmd_unfit (bus : Bus σ) (link : Link σ) {cmd : Cmd}
    (hbuf : cmd.buf.length = cfg.maxLen.toNat) (h : cmd.Unfit cfg) : bqfsExecCmd bus cfg link cmd = none := by
  have hbase := base_le cfg
  have hb := base_toNat cfg
  unfold bqfsExecCmd
  rcases h with ⟨hc, hno⟩ | h0
  · have hr : ¬ cfg.base - 1 + 1 + (cmd.len - UInt8.ofNat cfg.base).toNat ≤ cmd.buf.length := by
      have h256 := cfg.maxLen.toNat_lt
      by_cases hle : cfg.base ≤ cmd.len.toNat
      · rw [dataLen_toNat cfg hle]
        omega
      · -- the length wraps
        have hs := UInt8.toNat_sub cmd.len (UInt8.ofNat cfg.base)
        rw [hb] at hs
        omega
    rw [if_pos hc, show reaches cmd.buf (cfg.base - 1 + 1 + (cmd.len - UInt8.ofNat cfg.base).toNat) = none
      from if_neg hr]
    unfold reaches
    split <;> rfl
  · have hr : ¬ 1 ≤ cmd.buf.length := by
      rw [hbuf, h0]
      decide
    rw [show reaches cmd.buf 1 = none from if_neg hr]
    rfl

/-! ## Three tries -/

theorem execTries_holds (bus : Bus σ) {c : Command} {n : Nat} : ∀ (link : Link σ) {cmd : Cmd},
    cmd.buf.length = cfg.maxLen.toNat → cmd.Holds cfg c →
    ∃ addr cmd', execTries bus cfg n link cmd
        = some ((c.tries bus cfg n link.dev).1, ⟨(c.tries bus cfg n link.dev).2, addr⟩, cmd')
      ∧ cmd'.buf.length = cfg.maxLen.toNat := by
  induction n with
  | zero => exact fun link cmd hbuf _ => ⟨link.slaveAddr, cmd, rfl, hbuf⟩
  | succ n ih =>
    intro link cmd hbuf h
    obtain ⟨addr, cmd', he, hbuf', h'⟩ :=
      bqfsExecCmd_holds bus { link with dev := bus.sleepMs link.dev 20 } hbuf h
    unfold execTries Command.tries
    rw [he]
    dsimp only
    generalize c.exec bus cfg (bus.sleepMs link.dev 20) = r
    obtain ⟨ok, st⟩ := r
    cases ok with
    | true => exact ⟨addr, cmd', rfl, hbuf'⟩
    | false => exact ih ⟨st, addr⟩ hbuf' h'

theorem execTries_unfit (bus : Bus σ) (link : Link σ) {cmd : Cmd} (n : Nat)
    (hbuf : cmd.buf.length = cfg.maxLen.toNat) (h : cmd.Unfit cfg) :
    execTries bus cfg (n + 1) link cmd = none := by
  unfold execTries
  rw [bqfsExecCmd_unfit bus _ hbuf h]
  rfl

end Bqtool
