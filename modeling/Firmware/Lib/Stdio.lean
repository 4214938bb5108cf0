import Firmware.Lib.Bytes

/-!
# Update streams

A file opened with `fopen(name, "r+")`: the kernel's file with an offset, and the bytes that were
written to the stream and have not reached the kernel yet.  How many of them it hands over with a
call is its own business (`Policy`).

* `fread`, `fwrite`, `fflush`, `ftruncate`, `fclose`   the calls; `none` is what the standard
                    forbids, input right behind output and output behind input that did not meet
                    the end of the file;
* `content`         the file once everything is written, which only `fwrite` changes;
* `AtEnd`           the kernel's offset is the end of its file: writing appends;
* `Reading`         nothing was written: reading takes what is left from its front.
-/

set_option linter.unusedSectionVars false
set_option linter.unusedVariables false

namespace Stdio
open Img

variable {α : Type} [Inhabited α]

/-- the last operation on the stream -/
inductive Last where
  | opened
  | read
  | eof
  | written

structure Stream (α : Type) where
  disk : List α
  pos : Nat
  pending : List α
  last : Last

/-- how many of the pending cells a stream hands over at the end of a call -/
abbrev Policy (α : Type) := Stream α → Nat

/-- `write` at an offset, behind the end with a hole in between; no cells leave the file alone -/
def overwrite (m : List α) (off : Nat) (d : List α) : List α :=
  if d = [] then m else poke (m ++ List.replicate (off - m.length) default) off d

def fopen (file : List α) : Stream α := ⟨file, 0, [], .opened⟩

/-- the first `n` pending cells go to the kernel -/
def Stream.spill (s : Stream α) (n : Nat) : Stream α :=
  { s with disk := overwrite s.disk s.pos (s.pending.take n),
           pos := s.pos + (s.pending.take n).length,
           pending := s.pending.drop n }

/-- the file once everything is written -/
def Stream.content (s : Stream α) : List α := overwrite s.disk s.pos s.pending

def fread (k : Nat) (s : Stream α) : Option (List α × Stream α) :=
  match s.last with
  | .written => none
  | _ =>
    let d := (s.disk.drop s.pos).take k
    some (d, { s with pos := s.pos + d.length, last := if d.length < k then .eof else .read })

def fwrite (policy : Policy α) (d : List α) (s : Stream α) : Option (Stream α) :=
  match s.last with
  | .read => none
  | _ =>
    let s := { s with pending := s.pending ++ d, last := .written }
    some (s.spill (policy s))

def fflush (s : Stream α) : Stream α := s.spill s.pending.length

/-- acts on the kernel's file and leaves the stream alone -/
def ftruncate (s : Stream α) (n : Nat) : Stream α :=
  { s with disk := (s.disk ++ List.replicate (n - s.disk.length) default).take n }

/-- the file after `fclose` -/
def fclose (s : Stream α) : List α := (fflush s).disk

/-! ## appending -/

/-- what is written is appended -/
structure AtEnd (s : Stream α) : Prop where
  pos : s.pos = s.disk.length
  last : s.last = .eof ∨ s.last = .written

@[simp] theorem overwrite_nil (m : List α) (off : Nat) : overwrite m off [] = m := if_pos rfl

theorem overwrite_end (m d : List α) : overwrite m m.length d = m ++ d := by
  unfold overwrite
  by_cases hd : d = []
  · rw [if_pos hd, hd, List.append_nil]
  · rw [if_neg hd, Nat.sub_self, List.replicate_zero, List.append_nil]
    unfold poke
    rw [List.take_length, List.drop_eq_nil_of_le (Nat.le_add_right _ _), List.append_nil]

theorem AtEnd.content {s : Stream α} (h : AtEnd s) : s.content = s.disk ++ s.pending := by
  unfold Stream.content
  rw [h.pos, overwrite_end]

theorem AtEnd.spill {s : Stream α} (h : AtEnd s) (n : Nat) :
    AtEnd (s.spill n) ∧ (s.spill n).content = s.content := by
  have hd : (s.spill n).disk = s.disk ++ s.pending.take n := by
    show overwrite s.disk s.pos _ = _
    rw [h.pos, overwrite_end]
  have he : AtEnd (s.spill n) := by
    refine ⟨?_, h.last⟩
    rw [hd, List.length_append, ← h.pos]
    rfl
  refine ⟨he, ?_⟩
  rw [he.content, h.content, hd, List.append_assoc]
  show _ ++ (_ ++ s.pending.drop n) = _
  rw [List.take_append_drop]

/-- **Writing** at the end appends, whatever reaches the kernel. -/
theorem AtEnd.fwrite {s : Stream α} (h : AtEnd s) (policy : Policy α) (d : List α) :
    ∃ s', fwrite policy d s = some s' ∧ AtEnd s' ∧ s'.content = s.content ++ d := by
  let s₁ : Stream α := { s with pending := s.pending ++ d, last := .written }
  have h₁ : AtEnd s₁ := ⟨h.pos, .inr rfl⟩
  have hs : Stdio.fwrite policy d s = some (s₁.spill (policy s₁)) := by
    unfold Stdio.fwrite
    rcases h.last with hl | hl <;> rw [hl]
  obtain ⟨he, hc⟩ := h₁.spill (policy s₁)
  refine ⟨_, hs, he, ?_⟩
  rw [hc, h₁.content, h.content]
  exact (List.append_assoc _ _ _).symm

theorem AtEnd.fflush {s : Stream α} (h : AtEnd s) :
    (Stdio.fflush s).disk = s.content ∧ (Stdio.fflush s).pending = [] := by
  have hp : (Stdio.fflush s).pending = [] := List.drop_length
  obtain ⟨he, hc⟩ := h.spill s.pending.length
  refine ⟨?_, hp⟩
  rw [← hc, he.content]
  show _ = _ ++ (Stdio.fflush s).pending
  rw [hp, List.append_nil]
  rfl

theorem AtEnd.fclose {s : Stream α} (h : AtEnd s) : Stdio.fclose s = s.content := h.fflush.1

theorem fclose_of_pending {s : Stream α} (hp : s.pending = []) : Stdio.fclose s = s.disk := by
  show overwrite s.disk s.pos (s.pending.take _) = s.disk
  rw [hp, List.take_nil, overwrite_nil]

theorem ftruncate_disk {s : Stream α} {n : Nat} (h : n ≤ s.disk.length) :
    (ftruncate s n).disk = s.disk.take n := by
  show (s.disk ++ List.replicate (n - s.disk.length) default).take n = _
  rw [List.take_append_of_le_length h]

/-! ## reading -/

/-- what the stream has not read yet -/
def Stream.rest (s : Stream α) : List α := s.disk.drop s.pos

/-- nothing was written -/
structure Reading (s : Stream α) : Prop where
  pos : s.pos ≤ s.disk.length
  pending : s.pending = []
  last : s.last ≠ .written

theorem reading_fopen (file : List α) : Reading (fopen file) :=
  ⟨Nat.zero_le _, rfl, by simp [fopen]⟩

/-- one read: the front of what is left -/
theorem Reading.fread {s : Stream α} (h : Reading s) (k : Nat) :
    ∃ s', fread k s = some (s.rest.take k, s') ∧ Reading s' ∧ s'.disk = s.disk ∧
      s'.rest = s.rest.drop k ∧ (s.rest.length < k → AtEnd s') := by
  have hlen : s.rest.length = s.disk.length - s.pos := List.length_drop
  have htk : (s.rest.take k).length = min k s.rest.length := List.length_take
  let s' : Stream α := { s with pos := s.pos + (s.rest.take k).length,
                                last := if (s.rest.take k).length < k then .eof else .read }
  have hs : Stdio.fread k s = some (s.rest.take k, s') := by
    unfold Stdio.fread
    cases hl : s.last with
    | written => exact absurd hl h.last
    | opened => rfl
    | read => rfl
    | eof => rfl
  have hp := h.pos
  refine ⟨s', hs, ⟨?_, h.pending, ?_⟩, rfl, ?_, ?_⟩
  · show s.pos + (s.rest.take k).length ≤ s.disk.length
    omega
  · show (if (s.rest.take k).length < k then Last.eof else .read) ≠ .written
    split <;> simp
  · show s.disk.drop (s.pos + (s.rest.take k).length) = s.rest.drop k
    rw [← List.drop_drop]
    show s.rest.drop _ = _
    by_cases hk : k ≤ s.rest.length
    · rw [htk, Nat.min_eq_left hk]
    · rw [htk, Nat.min_eq_right (by omega), List.drop_length, List.drop_eq_nil_of_le (by omega)]
  · intro hk
    refine ⟨?_, .inl (if_pos (by omega))⟩
    show s.pos + (s.rest.take k).length = s.disk.length
    omega

end Stdio
