import Mathlib.Tactic

/-!
# Messages that come in pieces

A hash takes a message block by block. `absorb f b s xs` is where `f` leads from `s` over the full
blocks of `xs`, `rest b xs` what is behind them. A stream that knows these two of the message so far
can go on with the next piece: it fills up its block, or it does not.

* `absorb_append_of_dvd`: full blocks first.
* `absorb_append_of_lt`, `absorb_append_of_le`: a piece that does not fill the block, and one that does.
-/

namespace BlockStream

variable {α S : Type*} (f : S → List α → S) (b : ℕ)

/-- Over the first `k` blocks. -/
def absorbBlocks : ℕ → S → List α → S
  | 0, s, _ => s
  | k + 1, s, xs => absorbBlocks k (f s (xs.take b)) (xs.drop b)

/-- **Over all full blocks.** -/
def absorb (s : S) (xs : List α) : S := absorbBlocks f b (xs.length / b) s xs

/-- What is behind them. -/
def rest (xs : List α) : List α := xs.drop (b * (xs.length / b))

variable {f b} {s : S} {xs ys : List α}

theorem length_rest (b : ℕ) (xs : List α) : (rest b xs).length = xs.length % b := by
  unfold rest
  rw [List.length_drop, Nat.mod_def]

theorem absorb_of_lt (h : xs.length < b) : absorb f b s xs = s := by
  unfold absorb
  rw [Nat.div_eq_of_lt h]
  rfl

theorem rest_of_lt (h : xs.length < b) : rest b xs = xs := by
  unfold rest
  rw [Nat.div_eq_of_lt h, Nat.mul_zero, List.drop_zero]

/-- A block in front. -/
theorem absorb_block (hb : 0 < b) (hx : xs.length = b) : absorb f b s (xs ++ ys) = absorb f b (f s xs) ys := by
  have hlen : (xs ++ ys).length / b = ys.length / b + 1 := by
    rw [List.length_append, hx, Nat.add_div_left _ hb]
  unfold absorb
  rw [hlen, absorbBlocks, List.take_left' hx, List.drop_left' hx]

theorem rest_block (hb : 0 < b) (hx : xs.length = b) : rest b (xs ++ ys) = rest b ys := by
  have hlen : (xs ++ ys).length / b = ys.length / b + 1 := by
    rw [List.length_append, hx, Nat.add_div_left _ hb]
  unfold rest
  rw [hlen, Nat.mul_succ, Nat.add_comm, ← List.drop_drop, List.drop_left' hx]

/-- **Full blocks first.** -/
theorem absorb_append_of_dvd (hb : 0 < b) (hx : b ∣ xs.length) (s : S) (ys : List α) :
    absorb f b s (xs ++ ys) = absorb f b (absorb f b s xs) ys ∧ rest b (xs ++ ys) = rest b ys := by
  obtain ⟨k, hk⟩ := hx
  induction k generalizing s xs with
  | zero =>
    obtain rfl := List.length_eq_zero_iff.1 hk
    exact ⟨by rw [absorb_of_lt (show ([] : List α).length < b from hb)]; rfl, rfl⟩
  | succ k ih =>
    rw [Nat.mul_succ] at hk
    have hhead : (xs.take b).length = b := by rw [List.length_take]; omega
    have hrest : (xs.drop b).length = b * k := by rw [List.length_drop]; omega
    obtain ⟨h₁, h₂⟩ := ih (f s (xs.take b)) hrest
    rw [← List.take_append_drop b xs, List.append_assoc]
    exact ⟨by rw [absorb_block hb hhead, absorb_block hb hhead, h₁], by rw [rest_block hb hhead, h₂]⟩

/-- The full blocks, and what is behind them. -/
theorem exists_blocks (b : ℕ) (xs : List α) : ∃ us, xs = us ++ rest b xs ∧ b ∣ us.length := by
  refine ⟨xs.take (b * (xs.length / b)), (List.take_append_drop _ xs).symm, ?_⟩
  rw [List.length_take, Nat.min_eq_left (Nat.mul_div_le _ _)]
  exact Nat.dvd_mul_right b _

theorem absorb_rest (hb : 0 < b) (s : S) (xs ys : List α) :
    absorb f b s (xs ++ ys) = absorb f b (absorb f b s xs) (rest b xs ++ ys) ∧
      rest b (xs ++ ys) = rest b (rest b xs ++ ys) := by
  obtain ⟨us, hus, hdvd⟩ := exists_blocks b xs
  have hlt : (rest b xs).length < b := by
    rw [length_rest]
    exact Nat.mod_lt _ hb
  obtain ⟨h₁, h₂⟩ := absorb_append_of_dvd (f := f) hb hdvd s (rest b xs ++ ys)
  have h₃ := (absorb_append_of_dvd (f := f) hb hdvd s (rest b xs)).1
  rw [absorb_of_lt hlt, ← hus] at h₃
  rw [← List.append_assoc, ← hus] at h₁ h₂
  exact ⟨h₁.trans (by rw [h₃]), h₂⟩

/-- **A piece that does not fill the block.** -/
theorem absorb_append_of_lt (h : xs.length % b + ys.length < b) (s : S) :
    absorb f b s (xs ++ ys) = absorb f b s xs ∧ rest b (xs ++ ys) = rest b xs ++ ys := by
  have hlt : (rest b xs ++ ys).length < b := by
    rw [List.length_append, length_rest]
    exact h
  obtain ⟨h₁, h₂⟩ := absorb_rest (f := f) (b := b) (by omega) s xs ys
  exact ⟨h₁.trans (absorb_of_lt hlt), h₂.trans (rest_of_lt hlt)⟩

/-- **A piece that fills it.** -/
theorem absorb_append_of_le (hb : 0 < b) (h : b ≤ xs.length % b + ys.length) (s : S) :
    absorb f b s (xs ++ ys) =
        absorb f b (f (absorb f b s xs) (rest b xs ++ ys.take (b - xs.length % b))) (ys.drop (b - xs.length % b)) ∧
      rest b (xs ++ ys) = rest b (ys.drop (b - xs.length % b)) := by
  have hlt := Nat.mod_lt xs.length hb
  have hblock : (rest b xs ++ ys.take (b - xs.length % b)).length = b := by
    rw [List.length_append, length_rest, List.length_take]
    omega
  have hsplit : rest b xs ++ ys =
      rest b xs ++ ys.take (b - xs.length % b) ++ ys.drop (b - xs.length % b) := by
    rw [List.append_assoc, List.take_append_drop]
  obtain ⟨h₁, h₂⟩ := absorb_rest (f := f) hb s xs ys
  rw [hsplit] at h₁ h₂
  exact ⟨h₁.trans (absorb_block hb hblock), h₂.trans (rest_block hb hblock)⟩

end BlockStream
