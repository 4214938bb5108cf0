import Firmware.Lib.Bytes

/-!
# Buffers cut into blocks

A buffer is worked on block by block, from its beginning; what stands behind the last block is
left alone.

* `mapBlocks k f n m`     every one of the first `n` blocks of `k` cells replaced by its image;
* `foldBlocks k f n m a`  a value carried along the first `n` blocks;
* `mapBlocks_inverse`     a function that inverts another one inverts it block by block;
* `Absorbed`              data that come in pieces: whole blocks are folded, the rest waits.
-/

set_option linter.unusedVariables false

namespace Img

variable {α β : Type}

def mapBlocks (k : Nat) (f : List α → List α) : Nat → List α → List α
  | 0, m => m
  | n + 1, m => f (m.take k) ++ mapBlocks k f n (m.drop k)

def foldBlocks (k : Nat) (f : β → List α → β) : Nat → List α → β → β
  | 0, _, a => a
  | n + 1, m, a => foldBlocks k f n (m.drop k) (f a (m.take k))

variable {k : Nat} {f g : List α → List α}

theorem mapBlocks_length (hf : ∀ b, b.length = k → (f b).length = k) :
    ∀ (n : Nat) (m : List α), k * n ≤ m.length → (mapBlocks k f n m).length = m.length
  | 0, _, _ => rfl
  | n + 1, m, h => by
    rw [Nat.mul_succ] at h
    have ht : (m.take k).length = k := by
      rw [List.length_take]
      omega
    unfold mapBlocks
    rw [List.length_append, hf _ ht, mapBlocks_length hf n _ (by rw [List.length_drop]; omega),
      List.length_drop]
    omega

/-- what stands behind the blocks is left alone -/
theorem mapBlocks_append : ∀ (n : Nat) (a b : List α), a.length = k * n →
    mapBlocks k f n (a ++ b) = mapBlocks k f n a ++ b
  | 0, a, b, _ => rfl
  | n + 1, a, b, h => by
    rw [Nat.mul_succ] at h
    unfold mapBlocks
    rw [List.take_append_of_le_length (by omega), List.drop_append_of_le_length (by omega),
      mapBlocks_append n _ b (by rw [List.length_drop]; omega), List.append_assoc]

/-- and is not looked at -/
theorem foldBlocks_append {f : β → List α → β} : ∀ (n : Nat) (a b : List α) (x : β), a.length = k * n →
    foldBlocks k f n (a ++ b) x = foldBlocks k f n a x
  | 0, a, b, x, _ => rfl
  | n + 1, a, b, x, h => by
    rw [Nat.mul_succ] at h
    unfold foldBlocks
    rw [List.take_append_of_le_length (by omega), List.drop_append_of_le_length (by omega),
      foldBlocks_append n _ b _ (by rw [List.length_drop]; omega)]

theorem mapBlocks_inverse (hf : ∀ b, b.length = k → (f b).length = k)
    (hg : ∀ b, b.length = k → g (f b) = b) :
    ∀ (n : Nat) (m : List α), k * n ≤ m.length → mapBlocks k g n (mapBlocks k f n m) = m
  | 0, _, _ => rfl
  | n + 1, m, h => by
    rw [Nat.mul_succ] at h
    have ht : (m.take k).length = k := by
      rw [List.length_take]
      omega
    simp only [mapBlocks]
    rw [List.take_left' (hf _ ht), List.drop_left' (hf _ ht), hg _ ht,
      mapBlocks_inverse hf hg n _ (by rw [List.length_drop]; omega), List.take_append_drop]

/-! ## data in pieces -/

theorem foldBlocks_add {f : β → List α → β} : ∀ (n j : Nat) (a b : List α) (x : β),
    a.length = k * n → foldBlocks k f (n + j) (a ++ b) x = foldBlocks k f j b (foldBlocks k f n a x)
  | 0, j, a, b, x, h => by
    rw [List.length_eq_zero_iff.mp h, Nat.zero_add]
    rfl
  | n + 1, j, a, b, x, h => by
    rw [Nat.mul_succ] at h
    rw [Nat.succ_add]
    show foldBlocks k f (n + j) ((a ++ b).drop k) (f x ((a ++ b).take k))
      = foldBlocks k f j b (foldBlocks k f n (a.drop k) (f x (a.take k)))
    rw [List.take_append_of_le_length (by omega), List.drop_append_of_le_length (by omega),
      foldBlocks_add n j _ b _ (by rw [List.length_drop]; omega)]

/-- only the blocks are looked at -/
theorem foldBlocks_congr {f g : β → List α → β} (hfg : ∀ a b, b.length = k → f a b = g a b) :
    ∀ (n : Nat) (m : List α) (x : β), k * n ≤ m.length → foldBlocks k f n m x = foldBlocks k g n m x
  | 0, _, _, _ => rfl
  | n + 1, m, x, h => by
    rw [Nat.mul_succ] at h
    show foldBlocks k f n (m.drop k) (f x (m.take k)) = foldBlocks k g n (m.drop k) (g x (m.take k))
    rw [hfg x _ (by rw [List.length_take]; omega),
      foldBlocks_congr hfg n _ _ (by rw [List.length_drop]; omega)]

theorem foldBlocks_one {f : β → List α → β} {m : List α} {x : β} (h : m.length = k) :
    foldBlocks k f 1 m x = f x m := by
  show f x (m.take k) = _
  rw [List.take_of_length_le (by omega)]

/-- the whole blocks of `data` are folded into `acc`, the rest of it waits in `pend` -/
structure Absorbed (k : Nat) (f : β → List α → β) (x : β) (data : List α) (acc : β)
    (pend : List α) : Prop where
  short : pend.length < k
  split : ∃ whole n, data = whole ++ pend ∧ whole.length = k * n ∧ acc = foldBlocks k f n whole x

namespace Absorbed

variable {f : β → List α → β} {x acc : β} {data pend d : List α}

theorem nil (hk : 0 < k) : Absorbed k f x [] x [] := ⟨hk, [], 0, rfl, rfl, rfl⟩

/-- a piece that does not fill the block -/
theorem wait (h : Absorbed k f x data acc pend) (hd : pend.length + d.length < k) :
    Absorbed k f x (data ++ d) acc (pend ++ d) := by
  obtain ⟨whole, n, rfl, hw, ha⟩ := h.split
  exact ⟨by rw [List.length_append]; exact hd, whole, n, List.append_assoc .., hw, ha⟩

/-- a piece that ends with a block -/
theorem blocks (h : Absorbed k f x data acc pend) {m : Nat} (hd : pend.length + d.length = k * m) :
    Absorbed k f x (data ++ d) (foldBlocks k f m (pend ++ d) acc) [] := by
  obtain ⟨whole, n, rfl, hw, rfl⟩ := h.split
  refine ⟨Nat.lt_of_le_of_lt (Nat.zero_le _) h.short, whole ++ (pend ++ d), n + m, ?_, ?_, ?_⟩
  · rw [List.append_nil, List.append_assoc]
  · rw [List.length_append, List.length_append, hw, hd, Nat.mul_add]
  · rw [foldBlocks_add n m whole _ x hw]

/-- a piece of any length, when nothing waits -/
theorem rest (h : Absorbed k f x data acc []) (d : List α) :
    Absorbed k f x (data ++ d) (foldBlocks k f (d.length / k) d acc) (d.drop (k * (d.length / k))) := by
  have hk : 0 < k := h.short
  have hle := Nat.mul_div_le d.length k
  have hl : (d.take (k * (d.length / k))).length = k * (d.length / k) := by
    rw [List.length_take]
    omega
  have h1 := h.blocks (d := d.take (k * (d.length / k))) (m := d.length / k)
    (by rw [hl]; exact Nat.zero_add _)
  have h2 := h1.wait (d := d.drop (k * (d.length / k)))
    (by
      rw [List.length_nil, Nat.zero_add, List.length_drop, Nat.sub_lt_iff_lt_add hle, Nat.add_comm,
        ← Nat.mul_succ]
      exact Nat.lt_mul_div_succ d.length hk)
  have hf := foldBlocks_append (f := f) (d.length / k) _ (d.drop (k * (d.length / k))) acc hl
  rw [List.take_append_drop] at hf
  rw [List.append_assoc, List.take_append_drop, List.nil_append, List.nil_append] at h2
  rw [hf]
  exact h2

/-- nothing waits at the end of a block -/
theorem done (h : Absorbed k f x data acc []) : acc = foldBlocks k f (data.length / k) data x := by
  obtain ⟨whole, n, rfl, hw, rfl⟩ := h.split
  rw [List.append_nil, hw, Nat.mul_div_cancel_left n h.short]

end Absorbed

end Img
