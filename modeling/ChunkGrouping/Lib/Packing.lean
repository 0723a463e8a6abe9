import Mathlib.Algebra.Order.Floor.Ring
import Mathlib.Data.List.Dedup
import Mathlib.Order.Interval.Finset.Defs
import Mathlib.Tactic

/-!
# Packing an interval

Points of an interval that are pairwise a step apart lie in different cells of that
width, so there is at most one more of them than steps fit in the interval
(`length_le`).
-/

namespace Packing

variable {K : Type*} [Field K] [LinearOrder K] [IsStrictOrderedRing K] [FloorRing K] {δ : K}

/-- Points a step apart lie in different cells. -/
theorem floor_ne (hδ : 0 < δ) {x y : K} (h : δ ≤ |x - y|) : ⌊x / δ⌋ ≠ ⌊y / δ⌋ := by
  intro hcell
  have hlt := Int.abs_sub_lt_one_of_floor_eq_floor hcell
  rw [← sub_div, abs_div, abs_of_pos hδ, div_lt_one hδ] at hlt
  exact absurd h (not_le.2 hlt)

/-- **Packing**: at most `n + 1` points of `[0, n δ]` are pairwise `δ` apart. -/
theorem length_le (hδ : 0 < δ) {n : ℕ} {xs : List K} (hrange : ∀ x ∈ xs, 0 ≤ x ∧ x ≤ n * δ)
    (hapart : xs.Pairwise fun x y => δ ≤ |x - y|) : xs.length ≤ n + 1 := by
  set cells := xs.map fun x => ⌊x / δ⌋ with hcells
  have hnodup : cells.Nodup := by
    rw [hcells, List.Nodup, List.pairwise_map]
    exact hapart.imp (floor_ne hδ)
  have hsub : cells.toFinset ⊆ Finset.Icc 0 (n : ℤ) := by
    intro z hz
    rw [List.mem_toFinset, hcells] at hz
    obtain ⟨x, hx, rfl⟩ := List.mem_map.1 hz
    obtain ⟨h₀, h₁⟩ := hrange x hx
    have hle : x / δ ≤ n := (div_le_iff₀ hδ).2 h₁
    exact Finset.mem_Icc.2 ⟨Int.floor_nonneg.2 (div_nonneg h₀ hδ.le),
      Int.floor_le_iff.2 (hle.trans_lt (by exact_mod_cast lt_add_one n))⟩
  calc xs.length = cells.toFinset.card := by
        rw [List.toFinset_card_of_nodup hnodup, hcells, List.length_map]
    _ ≤ (Finset.Icc 0 (n : ℤ)).card := Finset.card_le_card hsub
    _ = n + 1 := by rw [Int.card_Icc]; omega

end Packing
