import Mathlib.Tactic
import Mathlib.Order.Bounds.Basic

/-!
# A running minimum that starts from the least value

The least value stands for "not yet set": a value is stored when it is not larger than what
is stored, or when that is the least. A value that is the least itself is then taken for
unset, and overwritten by whatever comes next.

* `run_eq_bot_iff`: the least is left exactly when there was no value, or the last was the least.
* `isLeast_run_iff`: the minimum is left exactly when no such value was overwritten.
* `run_congr`: without such a value the result depends on the set of values only.
* `getElem?_foldl_zipWith`: a vector of such minima, position by position.
-/

namespace RunningMin

variable {α : Type*} [LinearOrder α] [OrderBot α]

/-- Storing a value. -/
def lower (s t : α) : α := if t ≤ s ∨ s = ⊥ then t else s

/-- The values in their order. -/
def run (ts : List α) : α := ts.foldl lower ⊥

theorem run_concat (ts : List α) (t : α) : run (ts ++ [t]) = lower (run ts) t := by
  unfold run
  rw [List.foldl_append]
  rfl

/-- The least is stored only as a value. -/
theorem lower_eq_bot_iff (s t : α) : lower s t = ⊥ ↔ t = ⊥ := by
  unfold lower
  split
  · rfl
  · next h =>
    push Not at h
    exact iff_of_false h.2 (ne_bot_of_gt h.1)

theorem run_eq_bot_iff (ts : List α) : run ts = ⊥ ↔ ∀ t, ts.getLast? = some t → t = ⊥ := by
  induction ts using List.reverseRecOn with
  | nil => simp [run]
  | append_singleton ts t ih => rw [run_concat, lower_eq_bot_iff, List.getLast?_concat]; simp

/-- **The minimum** of values that are not the least. -/
theorem isLeast_run {ts : List α} (hne : ts ≠ []) (hbot : ⊥ ∉ ts) : IsLeast {t | t ∈ ts} (run ts) := by
  induction ts using List.reverseRecOn with
  | nil => exact absurd rfl hne
  | append_singleton ts t ih =>
    rw [run_concat]
    by_cases hts : ts = []
    · obtain rfl := hts
      have ht : lower (run []) t = t := if_pos (.inr rfl)
      rw [ht]
      exact ⟨List.mem_singleton_self t, fun x hx => (List.mem_singleton.1 hx).ge⟩
    · obtain ⟨hmem, hle⟩ := ih hts fun h => hbot (List.mem_append_left _ h)
      -- what is stored is a value, so it is not the least
      have hset : run ts ≠ ⊥ := fun h => hbot (List.mem_append_left _ (h ▸ hmem))
      have hlower : lower (run ts) t = min t (run ts) := by
        unfold lower
        rw [min_def]
        exact if_congr (or_iff_left hset) rfl rfl
      rw [hlower]
      refine ⟨?_, fun x hx => ?_⟩
      · rcases min_choice t (run ts) with h | h <;> rw [h]
        · exact List.mem_append_right _ (List.mem_singleton_self t)
        · exact List.mem_append_left _ hmem
      · rcases List.mem_append.1 hx with hx | hx
        · exact (min_le_right _ _).trans (hle hx)
        · rw [List.mem_singleton.1 hx]
          exact min_le_left _ _

/-- **The minimum is left exactly when** the least, if it is a value, is the last one. -/
theorem isLeast_run_iff {ts : List α} (hne : ts ≠ []) :
    IsLeast {t | t ∈ ts} (run ts) ↔ (⊥ ∈ ts → ts.getLast? = some ⊥) := by
  constructor
  · intro hleast hbot
    have hrun : run ts = ⊥ := le_bot_iff.1 (hleast.2 hbot)
    rw [List.getLast?_eq_some_getLast hne, Option.some.injEq]
    exact (run_eq_bot_iff ts).1 hrun _ (List.getLast?_eq_some_getLast hne)
  · intro hlast
    by_cases hbot : ⊥ ∈ ts
    · have hrun : run ts = ⊥ := by
        rw [run_eq_bot_iff, hlast hbot]
        rintro t ⟨⟩
        rfl
      rw [hrun]
      exact ⟨hbot, fun x _ => bot_le⟩
    · exact isLeast_run hne hbot

/-- **Only the set of values counts.** -/
theorem run_congr {ts ts' : List α} (h : ∀ t, t ∈ ts ↔ t ∈ ts') (hbot : ⊥ ∉ ts) : run ts = run ts' := by
  by_cases hne : ts = []
  · obtain rfl := hne
    have hnil : ts' = [] := List.eq_nil_iff_forall_not_mem.2 fun t ht => List.not_mem_nil ((h t).2 ht)
    rw [hnil]
  · have hne' : ts' ≠ [] := by
      obtain ⟨t, ht⟩ := List.exists_mem_of_ne_nil _ hne
      exact List.ne_nil_of_mem ((h t).1 ht)
    have hset : {t | t ∈ ts} = {t | t ∈ ts'} := Set.ext h
    have hleast := isLeast_run hne hbot
    rw [hset] at hleast
    exact hleast.unique (isLeast_run hne' fun hb => hbot ((h ⊥).2 hb))

omit [LinearOrder α] [OrderBot α] in
/-- A vector that is updated by vectors, at a position they all have. -/
theorem getElem?_foldl_zipWith {β φ : Type*} (f : α → β → α) (g : φ → List β) (xs : List φ) {s : List α} {j : ℕ}
    {v : φ → β} (hg : ∀ x ∈ xs, (g x)[j]? = some (v x)) {a : α} (ha : s[j]? = some a) :
    (xs.foldl (fun s x => List.zipWith f s (g x)) s)[j]? = some ((xs.map v).foldl f a) := by
  induction xs generalizing s a with
  | nil => exact ha
  | cons x xs ih =>
    rw [List.foldl_cons, List.map_cons, List.foldl_cons]
    apply ih fun y hy => hg y (List.mem_cons_of_mem _ hy)
    rw [List.getElem?_zipWith, ha, hg x List.mem_cons_self]

end RunningMin
