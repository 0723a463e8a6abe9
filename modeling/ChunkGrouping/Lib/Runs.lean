import Mathlib.Tactic

/-!
# Runs under a schedule

A system whose states are stepped by actors: `step a s` is the state after a step of `a`, if it
can step in `s`. A schedule says who steps, one after the other.

* `exec_inv`: what every step keeps, a schedule keeps.
* `Simulation.exec`: if every step is matched by the same actor's in another system, or changes
  nothing there, a schedule is matched by one with some of its steps.
* `exec_length_le`: if every step lowers a rank, no schedule is longer than the first rank.
-/

namespace Scheduled

variable {A S T : Type*}

/-- The state after a schedule. -/
def exec (step : A → S → Option S) (as : List A) (s : S) : Option S := as.foldlM (fun s a => step a s) s

variable {step : A → S → Option S} {step' : A → T → Option T} {as bs : List A} {a : A} {s s' s₁ : S} {t t' : T}

theorem exec_cons : exec step (a :: as) s = (step a s).bind (exec step as) := rfl

theorem exec_cons_eq_some : exec step (a :: as) s = some s' ↔ ∃ s₁, step a s = some s₁ ∧ exec step as s₁ = some s' := by
  rw [exec_cons, Option.bind_eq_some_iff]

theorem exec_append : exec step (as ++ bs) s = (exec step as s).bind (exec step bs) := by
  unfold exec
  rw [List.foldlM_append]
  rfl

theorem exec_trans (h : exec step as s = some s₁) (h' : exec step bs s₁ = some s') :
    exec step (as ++ bs) s = some s' := by
  rw [exec_append, h]
  exact h'

theorem exec_one (h : step a s = some s') : exec step [a] s = some s' := by
  rw [exec_cons, h]
  rfl

/-- **What every step keeps**, a schedule keeps. -/
theorem exec_inv {I : S → Prop} (hI : ∀ a s s', I s → step a s = some s' → I s') (as : List A) :
    ∀ {s s' : S}, I s → exec step as s = some s' → I s' := by
  induction as with
  | nil =>
    intro s s' h hs
    rwa [← Option.some.inj hs]
  | cons a as ih =>
    intro s s' h hs
    obtain ⟨s₁, h₁, hs⟩ := exec_cons_eq_some.1 hs
    exact ih (hI a s s₁ h h₁) hs

/-! ## Simulation -/

/-- **A simulation**: where `R` relates two states, a step of an actor is one in the other system too, or is
none there. -/
def Simulation (step : A → S → Option S) (step' : A → T → Option T) (R : S → T → Prop) : Prop :=
  ∀ a s t s₁, R s t → step a s = some s₁ → R s₁ t ∨ ∃ t₁, step' a t = some t₁ ∧ R s₁ t₁

/-- **A schedule is matched** by some of its steps. -/
theorem Simulation.exec {R : S → T → Prop} (h : Simulation step step' R) (as : List A) :
    ∀ {s s' : S} {t : T}, R s t → exec step as s = some s' →
      ∃ bs t', bs.Sublist as ∧ exec step' bs t = some t' ∧ R s' t' := by
  induction as with
  | nil =>
    intro s s' t hR hs
    obtain rfl := Option.some.inj hs
    exact ⟨[], t, .slnil, rfl, hR⟩
  | cons a as ih =>
    intro s s' t hR hs
    obtain ⟨s₁, h₁, hs⟩ := exec_cons_eq_some.1 hs
    rcases h a s t s₁ hR h₁ with hR' | ⟨t₁, ht, hR'⟩
    · obtain ⟨bs, t', hsub, hexec, hend⟩ := ih hR' hs
      exact ⟨bs, t', hsub.cons a, hexec, hend⟩
    · obtain ⟨bs, t', hsub, hexec, hend⟩ := ih hR' hs
      exact ⟨a :: bs, t', hsub.cons_cons a, exec_cons_eq_some.2 ⟨t₁, ht, hexec⟩, hend⟩

/-! ## Ranks -/

/-- **No schedule is longer** than what every step lowers. -/
theorem exec_length_le {I : S → Prop} {rank : S → ℕ} (hI : ∀ a s s', I s → step a s = some s' → I s')
    (hrank : ∀ a s s', I s → step a s = some s' → rank s' < rank s) (as : List A) :
    ∀ {s s' : S}, I s → exec step as s = some s' → as.length + rank s' ≤ rank s := by
  induction as with
  | nil =>
    intro s s' h hs
    obtain rfl := Option.some.inj hs
    exact (Nat.zero_add _).le
  | cons a as ih =>
    intro s s' h hs
    obtain ⟨s₁, h₁, hs⟩ := exec_cons_eq_some.1 hs
    have hlt := hrank a s s₁ h h₁
    have hle := ih (hI a s s₁ h h₁) hs
    rw [List.length_cons]
    omega

end Scheduled
