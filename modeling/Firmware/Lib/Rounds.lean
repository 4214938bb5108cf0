import Mathlib.Logic.Basic

/-!
# Block ciphers in rounds

A state goes through rounds: a layer that substitutes and mixes, then a round key is added.  The
last round only substitutes.  The inverse can be computed in rounds of the same form, with other
layers and other keys.

* `full`, `run`   the rounds before the last one, and all of them;
* `Layers`        the layers of the two directions;
* `Backwards`     the keys of the inverse: those of the rounds backwards, the mixing undone in them;
* `undo`          the inverse gives the state back.
-/

set_option linter.unusedVariables false

namespace Rounds

variable {σ : Type}

/-- `n` rounds; round `i` adds `k i` -/
def full (layer : σ → σ) (add : σ → σ → σ) (k : Nat → σ) : Nat → σ → σ
  | 0, x => x
  | n + 1, x => add (layer (full layer add k n x)) (k (n + 1))

def run (layer last : σ → σ) (add : σ → σ → σ) (k : Nat → σ) (n : Nat) (x : σ) : σ :=
  add (last (full layer add k n (add x (k 0)))) (k (n + 1))

/-- `imix` undoes the mixing of a layer; a key that is added twice is gone -/
structure Layers (layer last ilayer ilast imix : σ → σ) (add : σ → σ → σ) : Prop where
  imix_layer : ∀ x, imix (layer x) = last x
  ilayer_last : ∀ x, ilayer (last x) = imix x
  ilast_last : ∀ x, ilast (last x) = x
  imix_add : ∀ x y, imix (add x y) = add (imix x) (imix y)
  add_add : ∀ x y, add (add x y) y = x

/-- the keys of the inverse of `n + 1` rounds -/
structure Backwards (imix : σ → σ) (k k' : Nat → σ) (n : Nat) : Prop where
  first : k' 0 = k (n + 1)
  middle : ∀ i, 1 ≤ i → i ≤ n → k' i = imix (k (n + 1 - i))
  last : k' (n + 1) = k 0

variable {layer last ilayer ilast imix : σ → σ} {add : σ → σ → σ} {k k' : Nat → σ} {n : Nat}

/-- after `i` rounds of the inverse: the state that the last `i` rounds began with, substituted -/
theorem full_undo (h : Layers layer last ilayer ilast imix add) (hk : Backwards imix k k' n) (x : σ) :
    ∀ i, i ≤ n → full ilayer add k' i (last (full layer add k n x)) = last (full layer add k (n - i) x) := by
  intro i
  induction i with
  | zero =>
    intro _
    rfl
  | succ i ih =>
    intro hi
    obtain ⟨m, hm⟩ : ∃ m, n - i = m + 1 := ⟨n - i - 1, by omega⟩
    have hkey : k' (i + 1) = imix (k (m + 1)) := by
      rw [hk.middle (i + 1) (by omega) hi, show n + 1 - (i + 1) = m + 1 by omega]
    show add (ilayer (full ilayer add k' i _)) (k' (i + 1)) = _
    rw [ih (by omega), hm, h.ilayer_last, hkey, ← h.imix_add, show n - (i + 1) = m by omega]
    show imix (add (add (layer (full layer add k m x)) (k (m + 1))) (k (m + 1))) = _
    rw [h.add_add, h.imix_layer]

/-- **The rounds are undone** by rounds of the same form. -/
theorem undo (h : Layers layer last ilayer ilast imix add) (hk : Backwards imix k k' n) (x : σ) :
    run ilayer ilast add k' n (run layer last add k n x) = x := by
  unfold run
  rw [hk.first, h.add_add, full_undo h hk (add x (k 0)) n (Nat.le_refl n), Nat.sub_self, h.ilast_last,
    hk.last]
  exact h.add_add x (k 0)

end Rounds
