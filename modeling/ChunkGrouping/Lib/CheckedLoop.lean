import Mathlib.Tactic

/-!
# Counting loops over arrays, with their bounds checked

`forLoop body n` runs `body 0`, ..., `body (n - 1)`; it fails where a round does. Reads
are `xs[i]?`, writes `write i v xs`.

* `forLoop_inv`: a loop whose rounds succeed under an invariant succeeds.
* `readLoop_eq`: folding over a slice; `updateLoop_eq`: changing every element in place.
-/

namespace CheckedLoop

variable {α σ : Type}

/-- `for (i = 0; i < n; i++)`. -/
def forLoop (body : ℕ → σ → Option σ) : ℕ → σ → Option σ
  | 0, s => some s
  | n + 1, s => (forLoop body n s).bind (body n)

/-- `xs[i] = v`. -/
def write (i : ℕ) (v : α) (xs : List α) : Option (List α) := if i < xs.length then some (xs.set i v) else none

theorem write_of_lt {i : ℕ} {xs : List α} (h : i < xs.length) (v : α) : write i v xs = some (xs.set i v) :=
  if_pos h

/-- **The rule of the loop**: `P i` holds before round `i`. -/
theorem forLoop_inv (body : ℕ → σ → Option σ) (n : ℕ) (s : σ) (P : ℕ → σ → Prop) (h₀ : P 0 s)
    (hstep : ∀ i < n, ∀ s, P i s → ∃ s', body i s = some s' ∧ P (i + 1) s') :
    ∃ s', forLoop body n s = some s' ∧ P n s' := by
  induction n with
  | zero => exact ⟨s, rfl, h₀⟩
  | succ n ih =>
    obtain ⟨s₁, h₁, hP⟩ := ih fun i hi => hstep i (by omega)
    obtain ⟨s₂, h₂, hP'⟩ := hstep n (by omega) s₁ hP
    exact ⟨s₂, by rw [forLoop, h₁, Option.bind_some, h₂], hP'⟩

/-- **A loop that reads** the `n` elements from `p` on. -/
theorem readLoop_eq {xs : List α} (f : σ → α → σ) {p n : ℕ} (h : p + n ≤ xs.length) (s : σ) :
    forLoop (fun k s => do
      let x ← xs[p + k]?
      some (f s x)) n s = some (((xs.drop p).take n).foldl f s) := by
  induction n with
  | zero => simp [forLoop]
  | succ n ih =>
    have hlt : p + n < xs.length := by omega
    have hget : (xs.drop p)[n]? = some xs[p + n] := by
      rw [List.getElem?_drop, List.getElem?_eq_getElem hlt]
    rw [forLoop, ih (by omega), Option.bind_some, List.getElem?_eq_getElem hlt, List.take_add_one, hget,
      Option.toList_some, List.foldl_append]
    rfl

/-- **A loop that changes every element** in place. -/
theorem updateLoop_eq {body : ℕ → List α → Option (List α)} {g : ℕ → α → α} {n : ℕ} {xs : List α}
    (hn : xs.length = n)
    (hbody : ∀ j < n, ∀ ys x, ys[j]? = some x → body j ys = write j (g j x) ys) :
    forLoop body n xs = some (xs.mapIdx g) := by
  -- before round `i` the first `i` elements are changed
  obtain ⟨ys, hys, hl, hget⟩ := forLoop_inv body n xs
    (fun i ys => ys.length = n ∧ ∀ j, ys[j]? = if j < i then xs[j]?.map (g j) else xs[j]?)
    ⟨hn, fun j => by simp⟩ (fun i hi ys hP => by
      obtain ⟨hl, hget⟩ := hP
      have hlt : i < xs.length := by omega
      have hi' : ys[i]? = some xs[i] := by
        rw [hget, if_neg (lt_irrefl i), List.getElem?_eq_getElem hlt]
      refine ⟨ys.set i (g i xs[i]), ?_, by rw [List.length_set, hl], fun j => ?_⟩
      · rw [hbody i hi ys _ hi']
        exact write_of_lt (by omega) _
      · rw [List.getElem?_set]
        by_cases hj : i = j
        · subst hj
          rw [if_pos rfl, if_pos (by omega), if_pos (by omega), List.getElem?_eq_getElem hlt, Option.map_some]
        · rw [if_neg hj, hget]
          exact if_congr (by omega) rfl rfl)
  rw [hys, Option.some.injEq]
  refine List.ext_getElem? fun j => ?_
  rw [hget, List.getElem?_mapIdx]
  split
  · rfl
  · rw [List.getElem?_eq_none (by omega), Option.map_none]

/-- **A loop that fills an array.** -/
theorem fillLoop_eq {body : ℕ → List α → Option (List α)} {g : ℕ → α} {n : ℕ} (v : α)
    (hbody : ∀ j < n, ∀ ys, body j ys = write j (g j) ys) :
    forLoop body n (List.replicate n v) = some ((List.range n).map g) := by
  rw [updateLoop_eq (g := fun j _ => g j) List.length_replicate fun j hj ys _ _ => hbody j hj ys,
    Option.some.injEq]
  refine List.ext_getElem (by simp) fun j _ _ => by simp

end CheckedLoop
