import Mathlib.Data.List.DropRight
import Mathlib.Tactic

/-!
# Rolling hashes

A rolling hash multiplies its value by a constant and adds something for the letter it reads.
If a power of the constant is 0, what was read before the last letters is multiplied by 0: the
value depends on these letters only.

* `Rolling.foldl_eq`: the value after a word, in terms of that before it.
* `Rolling.foldl_append`: after enough letters the value forgets what came before them.
* `Rolling.foldl_rtake`: words that end alike have one value.
-/

namespace RollingHash

variable {R σ β : Type*} [Semiring R]

/-- Seen through `φ`, a step multiplies by `c` and adds what `g` has for the letter. -/
structure Rolling (φ : σ → R) (c : R) (g : β → R) (step : σ → β → σ) : Prop where
  step : ∀ s b, φ (step s b) = c * φ s + g b

variable {φ : σ → R} {c : R} {g : β → R} {step : σ → β → σ} {k : ℕ}

/-- **The value after a word**: the value before it is multiplied once for each letter. -/
theorem Rolling.foldl_eq (h : Rolling φ c g step) (w : List β) (s : σ) :
    φ (w.foldl step s) = c ^ w.length * φ s + w.foldl (fun x b => c * x + g b) 0 := by
  induction w using List.reverseRecOn with
  | nil => simp
  | append_singleton w b ih =>
    rw [List.foldl_append, List.foldl_append, List.length_append, List.length_singleton, pow_succ']
    simp only [List.foldl_cons, List.foldl_nil]
    rw [h.step, ih, mul_add, mul_assoc, add_assoc]

/-- **A word as long as the window** makes all states one. -/
theorem Rolling.foldl_forget (h : Rolling φ c g step) (hc : c ^ k = 0) {w : List β} (hw : k ≤ w.length) (s s' : σ) :
    φ (w.foldl step s) = φ (w.foldl step s') := by
  have hzero : c ^ w.length = 0 := pow_eq_zero_of_le hw hc
  rw [h.foldl_eq, h.foldl_eq, hzero, zero_mul, zero_mul]

/-- What was read before does not count. -/
theorem Rolling.foldl_append (h : Rolling φ c g step) (hc : c ^ k = 0) {w : List β} (hw : k ≤ w.length)
    (u v : List β) (s s' : σ) : φ ((u ++ w).foldl step s) = φ ((v ++ w).foldl step s') := by
  rw [List.foldl_append, List.foldl_append]
  exact h.foldl_forget hc hw _ _

/-- **Words that end alike** have one value. -/
theorem Rolling.foldl_rtake (h : Rolling φ c g step) (hc : c ^ k = 0) {w w' : List β} (hw : k ≤ w'.length)
    (hend : w.rtake k = w'.rtake k) (s s' : σ) : φ (w.foldl step s) = φ (w'.foldl step s') := by
  have hcut : ∀ x : List β, x = x.take (x.length - k) ++ x.rtake k := fun x => (List.take_append_drop _ x).symm
  have hlen : k ≤ (w'.rtake k).length := by
    rw [List.rtake, List.length_drop]
    omega
  rw [hcut w, hcut w', hend]
  exact h.foldl_append hc hlen _ _ s s'

/-- The last letters are those of every longer end. -/
theorem rtake_drop {α : Type*} {l : List α} {a : ℕ} (h : a + k ≤ l.length) : (l.drop a).rtake k = l.rtake k := by
  unfold List.rtake
  rw [List.length_drop, List.drop_drop]
  congr 1
  omega

end RollingHash
