import Mathlib.Data.List.Basic

/-!
# Reading loops

`while ((bytes = fread(buf, 1, min(k, length), file)) > 0) { s = f(s, buf); length -= bytes; }`

* `loop`         the loop, on what is left of the file: what is left of `length`, and `s`;
* `loop_eq`      it passes the next `length` bytes to `f`, in pieces.
-/

namespace Fread

variable {α σ : Type}

def loop (k : Nat) (f : σ → List α → σ) : Nat → List α → Nat → σ → Nat × σ
  | 0, _, length, s => (length, s)
  | fuel + 1, rest, length, s =>
    let buf := rest.take (min k length)
    if buf.length = 0 then (length, s)
    else loop k f fuel (rest.drop buf.length) (length - buf.length) (f s buf)

variable {k : Nat} {f : σ → List α → σ}

theorem loop_eq (hk : 0 < k) {fuel n : Nat} (h : n < fuel) (rest : List α) (s : σ) :
    ∃ pieces : List (List α), pieces.flatten = rest.take n ∧
      loop k f fuel rest n s = (n - rest.length, pieces.foldl f s) := by
  induction fuel generalizing n rest s with
  | zero => exact absurd h (by omega)
  | succ fuel ih =>
    have hl : (rest.take (min k n)).length = min (min k n) rest.length := List.length_take
    unfold loop
    dsimp only
    split
    · next hz =>
      -- nothing is left, of the file or of the length
      refine ⟨[], ?_, ?_⟩
      · exact (List.eq_nil_of_length_eq_zero (by rw [List.length_take]; omega)).symm
      · rw [List.foldl_nil, show n - rest.length = n by omega]
    · next hz =>
      obtain ⟨pieces, h1, h2⟩ := ih (n := n - (rest.take (min k n)).length)
        (by omega) (rest.drop (rest.take (min k n)).length) (f s (rest.take (min k n)))
      refine ⟨rest.take (min k n) :: pieces, ?_, ?_⟩
      · have ht : rest.take (min k n) = rest.take (min (min k n) rest.length) :=
          List.take_eq_take_iff.mpr (by omega)
        rw [List.flatten_cons, h1, hl, ht, ← List.take_add]
        congr 1
        omega
      · rw [h2, List.foldl_cons, List.length_drop]
        congr 1
        omega

theorem foldl_append (s : List α) (pieces : List (List α)) :
    pieces.foldl (· ++ ·) s = s ++ pieces.flatten := by
  induction pieces generalizing s with
  | nil => exact (List.append_nil s).symm
  | cons d pieces ih => rw [List.foldl_cons, ih, List.flatten_cons, List.append_assoc]

/-- a loop that copies -/
theorem loop_append (hk : 0 < k) {fuel length : Nat} (h : length < fuel) (rest s : List α) :
    loop k (· ++ ·) fuel rest length s = (length - rest.length, s ++ rest.take length) := by
  obtain ⟨pieces, h1, h2⟩ := loop_eq (f := (· ++ ·)) hk h rest s
  rw [h2, foldl_append, h1]

end Fread
