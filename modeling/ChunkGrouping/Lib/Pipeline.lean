import Mathlib.Tactic

/-!
# Pipelines over bounded queues

Workers `0, ..., last` in a row, queue `w` between worker `w` and worker `w + 1`. Worker
0 makes items, the others take an item, work on it and pass it on; the last one passes
nothing on. A worker that finds its queue empty and marked done is through, and marks
the next queue. Who is next to step is up to the schedule.

* `Inv`: what every worker has taken and passed on, and where it is now; `step_inv` for
  one step of any worker.
* `of_returned`: when all workers have returned, all queues are empty and every worker
  has taken what the one before it made.
* `Inv.passed`: that is what comes of passing the items on one by one.
-/

namespace BoundedPipeline

/-- What the workers do. A worker's own state is not shared; `none` is a crash. -/
structure Program (σ : ℕ → Type) (α : Type) where
  last : ℕ
  cap : ℕ
  produce : σ 0 → Option (Option α × σ 0)
  work : ∀ w, σ w → α → Option (α × σ w)

/-- Where a worker is. -/
inductive Phase (α : Type) where
  | fetch
  | work (a : α)
  | push (a : α)
  | finish
  | returned
deriving DecidableEq, Repr

namespace Phase

variable {α : Type}

/-- The item taken from the queue before. -/
def taken : Phase α → List α
  | work a => [a]
  | fetch | push _ | finish | returned => []

/-- The item made for the queue behind. -/
def held : Phase α → List α
  | push a => [a]
  | fetch | work _ | finish | returned => []

/-- Nothing more will be taken. -/
def Closed : Phase α → Prop
  | finish | returned => True
  | fetch | work _ | push _ => False

/-- The worker has returned. -/
def isReturned : Phase α → Bool
  | returned => true
  | fetch | work _ | push _ | finish => false

theorem isReturned_iff {p : Phase α} : p.isReturned = true ↔ p = returned := by
  cases p <;> simp [isReturned]

@[simp] theorem taken_fetch : (fetch : Phase α).taken = [] := rfl
@[simp] theorem taken_work (a : α) : (work a).taken = [a] := rfl
@[simp] theorem taken_push (a : α) : (push a).taken = [] := rfl
@[simp] theorem taken_finish : (finish : Phase α).taken = [] := rfl
@[simp] theorem taken_returned : (returned : Phase α).taken = [] := rfl
@[simp] theorem held_fetch : (fetch : Phase α).held = [] := rfl
@[simp] theorem held_work (a : α) : (work a).held = [] := rfl
@[simp] theorem held_push (a : α) : (push a).held = [a] := rfl
@[simp] theorem held_finish : (finish : Phase α).held = [] := rfl
@[simp] theorem held_returned : (returned : Phase α).held = [] := rfl
@[simp] theorem not_closed_fetch : ¬ (fetch : Phase α).Closed := id
@[simp] theorem not_closed_work (a : α) : ¬ (work a).Closed := id
@[simp] theorem not_closed_push (a : α) : ¬ (push a).Closed := id
@[simp] theorem closed_finish : (finish : Phase α).Closed := trivial
@[simp] theorem closed_returned : (returned : Phase α).Closed := trivial

/-- A worker that is through has nothing in its hands. -/
theorem Closed.taken {p : Phase α} (h : p.Closed) : p.taken = [] := by cases p <;> simp_all

theorem Closed.held {p : Phase α} (h : p.Closed) : p.held = [] := by cases p <;> simp_all

end Phase

/-- The state of a pipeline. -/
structure State (σ : ℕ → Type) (α : Type) where
  loc : ∀ w, σ w
  phase : ℕ → Phase α
  queue : ℕ → List α
  done : ℕ → Bool

variable {σ : ℕ → Type} {α : Type}

namespace State

/-- Worker `w` moves on to `p`. -/
def goto (w : ℕ) (p : Phase α) (s : State σ α) : State σ α := { s with phase := Function.update s.phase w p }

/-- Worker `w`'s own state. -/
def setLoc (w : ℕ) (l : σ w) (s : State σ α) : State σ α := { s with loc := Function.update s.loc w l }

/-- Queue `w`. -/
def setQueue (w : ℕ) (q : List α) (s : State σ α) : State σ α :=
  { s with queue := Function.update s.queue w q }

@[simp] theorem goto_loc (w : ℕ) (p : Phase α) (s : State σ α) : (s.goto w p).loc = s.loc := rfl
@[simp] theorem goto_queue (w : ℕ) (p : Phase α) (s : State σ α) : (s.goto w p).queue = s.queue := rfl
@[simp] theorem goto_done (w : ℕ) (p : Phase α) (s : State σ α) : (s.goto w p).done = s.done := rfl
@[simp] theorem goto_phase_self (w : ℕ) (p : Phase α) (s : State σ α) : (s.goto w p).phase w = p :=
  Function.update_self ..
theorem goto_phase_of_ne {v w : ℕ} (h : v ≠ w) (p : Phase α) (s : State σ α) :
    (s.goto w p).phase v = s.phase v := Function.update_of_ne h ..

@[simp] theorem setLoc_phase (w : ℕ) (l : σ w) (s : State σ α) : (s.setLoc w l).phase = s.phase := rfl
@[simp] theorem setLoc_queue (w : ℕ) (l : σ w) (s : State σ α) : (s.setLoc w l).queue = s.queue := rfl
@[simp] theorem setLoc_done (w : ℕ) (l : σ w) (s : State σ α) : (s.setLoc w l).done = s.done := rfl
@[simp] theorem setLoc_loc_self (w : ℕ) (l : σ w) (s : State σ α) : (s.setLoc w l).loc w = l :=
  Function.update_self ..
theorem setLoc_loc_of_ne {v w : ℕ} (h : v ≠ w) (l : σ w) (s : State σ α) :
    (s.setLoc w l).loc v = s.loc v := Function.update_of_ne h ..

@[simp] theorem setQueue_phase (w : ℕ) (q : List α) (s : State σ α) : (s.setQueue w q).phase = s.phase := rfl
@[simp] theorem setQueue_loc (w : ℕ) (q : List α) (s : State σ α) : (s.setQueue w q).loc = s.loc := rfl
@[simp] theorem setQueue_done (w : ℕ) (q : List α) (s : State σ α) : (s.setQueue w q).done = s.done := rfl
@[simp] theorem setQueue_queue_self (w : ℕ) (q : List α) (s : State σ α) : (s.setQueue w q).queue w = q :=
  Function.update_self ..
theorem setQueue_queue_of_ne {v w : ℕ} (h : v ≠ w) (q : List α) (s : State σ α) :
    (s.setQueue w q).queue v = s.queue v := Function.update_of_ne h ..

/-- All workers have returned. -/
def AllReturned (s : State σ α) : Prop := ∀ w, s.phase w = .returned

end State

variable (P : Program σ α)

/-- All workers start, all marks are off. -/
def restart (s : State σ α) : State σ α :=
  { s with phase := fun w => if w ≤ P.last then .fetch else .returned, done := fun _ => false }

/-- **A step of worker `w`**, if it can step. -/
def step (w : ℕ) (s : State σ α) : Option (State σ α) :=
  match s.phase w with
  | .fetch =>
    match w with
    | 0 => do
      let (a, l) ← P.produce (s.loc 0)
      match a with
      | some a => some ((s.setLoc 0 l).goto 0 (.push a))
      | none => some ((s.setLoc 0 l).goto 0 .finish)
    | v + 1 =>
      match s.queue v with
      | a :: q => some ((s.setQueue v q).goto (v + 1) (.work a))
      | [] => if s.done v then some (s.goto (v + 1) (if v + 1 = P.last then .returned else .finish)) else none
  | .work a => do
    let (b, l) ← P.work w (s.loc w) a
    some ((s.setLoc w l).goto w (if w = P.last then .fetch else .push b))
  | .push a =>
    if (s.queue w).length < P.cap then some ((s.setQueue w (s.queue w ++ [a])).goto w .fetch) else none
  | .finish => some ({ s with done := Function.update s.done w true }.goto w .returned)
  | .returned => none

/-- The state after a schedule. -/
def run (ws : List ℕ) (s : State σ α) : Option (State σ α) := ws.foldlM (fun s w => step P w s) s

/-- What a step of worker `w` can be. -/
inductive Does (s : State σ α) : ℕ → State σ α → Prop
  | made {a : α} {l : σ 0} : s.phase 0 = .fetch → P.produce (s.loc 0) = some (some a, l) →
      Does s 0 ((s.setLoc 0 l).goto 0 (.push a))
  | exhausted {l : σ 0} : s.phase 0 = .fetch → P.produce (s.loc 0) = some (none, l) →
      Does s 0 ((s.setLoc 0 l).goto 0 .finish)
  | popped {v : ℕ} {a : α} {q : List α} : s.phase (v + 1) = .fetch → s.queue v = a :: q →
      Does s (v + 1) ((s.setQueue v q).goto (v + 1) (.work a))
  | through {v : ℕ} {p : Phase α} : s.phase (v + 1) = .fetch → s.queue v = [] → s.done v = true → p.Closed →
      Does s (v + 1) (s.goto (v + 1) p)
  | worked {w : ℕ} {a b : α} {l : σ w} {p : Phase α} : s.phase w = .work a →
      P.work w (s.loc w) a = some (b, l) → (w < P.last → p = .push b) → (P.last ≤ w → p.taken = []) →
      ¬ p.Closed → (∀ c, p ≠ .work c) → Does s w ((s.setLoc w l).goto w p)
  | pushed {w : ℕ} {a : α} : s.phase w = .push a → (s.queue w).length < P.cap →
      Does s w ((s.setQueue w (s.queue w ++ [a])).goto w .fetch)
  | marked {w : ℕ} : s.phase w = .finish →
      Does s w ({ s with done := Function.update s.done w true }.goto w .returned)

variable {P} {s s' : State σ α} {w : ℕ}

theorem step_cases (h : step P w s = some s') : Does P s w s' := by
  unfold step at h
  cases hp : s.phase w with
  | fetch =>
    rw [hp] at h
    cases w with
    | zero =>
      simp only [Option.bind_eq_bind, Option.bind_eq_some_iff] at h
      obtain ⟨⟨a, l⟩, hm, h⟩ := h
      cases a with
      | some a => rw [← Option.some.inj h]; exact .made hp hm
      | none => rw [← Option.some.inj h]; exact .exhausted hp hm
    | succ v =>
      simp only at h
      cases hq : s.queue v with
      | cons a q =>
        rw [hq] at h
        rw [← Option.some.inj h]; exact .popped hp hq
      | nil =>
        rw [hq] at h
        simp only at h
        split at h
        · rw [← Option.some.inj h]
          refine .through hp hq ‹_› ?_
          split <;> exact trivial
        · simp at h
  | work a =>
    rw [hp] at h
    simp only [Option.bind_eq_bind, Option.bind_eq_some_iff, Option.some.injEq] at h
    obtain ⟨⟨b, l⟩, hw, rfl⟩ := h
    refine .worked hp hw (fun hl => if_neg (by omega)) (fun hl => ?_) ?_ ?_
    · split <;> rfl
    · split <;> exact id
    · intro c
      split <;> simp
  | push a =>
    rw [hp] at h
    simp only at h
    split at h
    · rw [← Option.some.inj h]; exact .pushed hp ‹_›
    · simp at h
  | finish =>
    rw [hp] at h
    rw [← Option.some.inj h]; exact .marked hp
  | returned => rw [hp] at h; simp at h

theorem step_returned (h : s.phase w = .returned) : step P w s = none := by
  unfold step
  rw [h]

/-! ## Histories -/

/-- What a worker makes of a sequence of items. -/
def runStage {τ : Type} (f : τ → α → Option (α × τ)) : τ → List α → Option (List α × τ)
  | t, [] => some ([], t)
  | t, a :: as => do
    let (b, t) ← f t a
    let (bs, t) ← runStage f t as
    some (b :: bs, t)

theorem runStage_concat {τ : Type} {f : τ → α → Option (α × τ)} {t t' t'' : τ} {as bs : List α} {a b : α}
    (h : runStage f t as = some (bs, t')) (ha : f t' a = some (b, t'')) :
    runStage f t (as ++ [a]) = some (bs ++ [b], t'') := by
  induction as generalizing t bs with
  | nil =>
    obtain ⟨rfl, rfl⟩ := Prod.mk.inj (Option.some.inj h)
    simp [runStage, ha]
  | cons x as ih =>
    simp only [runStage, Option.bind_eq_bind, Option.bind_eq_some_iff, Option.some.injEq, Prod.mk.injEq] at h
    obtain ⟨⟨y, t₁⟩, hx, ⟨ys, t₂⟩, hrest, rfl, rfl⟩ := h
    simp [runStage, hx, ih hrest]

theorem runStage_cons {τ : Type} {f : τ → α → Option (α × τ)} {t t' : τ} {a : α} {as bs : List α}
    (h : runStage f t (a :: as) = some (bs, t')) :
    ∃ b t₁ bs', f t a = some (b, t₁) ∧ runStage f t₁ as = some (bs', t') ∧ bs = b :: bs' := by
  simp only [runStage, Option.bind_eq_bind, Option.bind_eq_some_iff, Option.some.injEq, Prod.mk.injEq] at h
  obtain ⟨⟨b, t₁⟩, hb, ⟨bs', t₂⟩, hrest, rfl, rfl⟩ := h
  exact ⟨b, t₁, bs', hb, hrest, rfl⟩

/-- Worker 0 makes the items `as` and is then in state `l'`. -/
inductive Makes (P : Program σ α) : σ 0 → List α → σ 0 → Prop
  | nil (l : σ 0) : Makes P l [] l
  | concat {l m n : σ 0} {as : List α} {a : α} : Makes P l as m → P.produce m = some (some a, n) →
      Makes P l (as ++ [a]) n

/-- Worker 0 makes the items `as`, and then no more. -/
def Drains (P : Program σ α) (l : σ 0) (as : List α) (l' : σ 0) : Prop :=
  ∃ m, Makes P l as m ∧ P.produce m = some (none, l')

/-- **The histories.** Worker `w` has taken `ins w` and made `outs w`; what was made and not yet taken
is in the hands of a worker or in the queue between. -/
structure Inv (P : Program σ α) (l : ∀ w, σ w) (s : State σ α) (ins outs : ℕ → List α) : Prop where
  source : (¬ (s.phase 0).Closed ∧ Makes P (l 0) (outs 0) (s.loc 0)) ∨
    ((s.phase 0).Closed ∧ Drains P (l 0) (outs 0) (s.loc 0))
  stage : ∀ w, w < P.last → runStage (P.work (w + 1)) (l (w + 1)) (ins (w + 1)) =
    some (outs (w + 1), s.loc (w + 1))
  link : ∀ w, w < P.last →
    outs w = ins (w + 1) ++ ((s.phase (w + 1)).taken ++ (s.queue w ++ (s.phase w).held))
  cap : ∀ w, w < P.last → (s.queue w).length ≤ P.cap
  flag : ∀ w, s.done w = true → s.phase w = .returned
  closed : ∀ w, w < P.last → (s.phase (w + 1)).Closed → s.queue w = [] ∧ s.phase w = .returned
  maker : ∀ a, s.phase 0 ≠ .work a
  idle : ∀ w, P.last < w → s.phase w = .returned

/-- A new run on empty queues. -/
theorem inv_restart (P : Program σ α) (s : State σ α) (hq : ∀ w, w < P.last → s.queue w = []) :
    Inv P s.loc (restart P s) (fun _ => []) (fun _ => []) where
  source := .inl ⟨by simp [restart], .nil _⟩
  stage w _ := rfl
  link w hw := by
    have h1 : w + 1 ≤ P.last := hw
    have h2 : w ≤ P.last := by omega
    simp [restart, hq w hw, h1, h2]
  cap w hw := by simp [restart, hq w hw]
  flag w h := by simp [restart] at h
  closed w hw h := by
    have h1 : w + 1 ≤ P.last := hw
    simp [restart, h1] at h
  maker a := by simp [restart]
  idle w hw := by
    have h1 : ¬ w ≤ P.last := by omega
    simp [restart, h1]

/-! ## Steps -/

section Step

variable {l : ∀ w, σ w} {ins outs ins' outs' : ℕ → List α} {u : ℕ}

/-- A worker that steps is one of the pipeline. -/
theorem Inv.le_last (h : Inv P l s ins outs) (hp : s.phase u ≠ .returned) : u ≤ P.last := by
  by_contra hlt
  exact hp (h.idle u (by omega))

/-- What is the same after a move of worker `u`, and what is to be shown of it. -/
structure Moves (P : Program σ α) (l : ∀ w, σ w) (u : ℕ) (s s' : State σ α) (ins outs ins' outs' : ℕ → List α) :
    Prop where
  phase : ∀ v, v ≠ u → s'.phase v = s.phase v
  loc : ∀ v, v ≠ u → s'.loc v = s.loc v
  queue : ∀ v, v ≠ u → v + 1 ≠ u → s'.queue v = s.queue v
  taken : ∀ v, v ≠ u → ins' v = ins v
  made : ∀ v, v ≠ u → outs' v = outs v
  cap : ∀ v, v < P.last → (s'.queue v).length ≤ P.cap
  flag : ∀ v, s'.done v = true → s.done v = true ∨ (v = u ∧ s'.phase u = .returned)
  source : u = 0 → (¬ (s'.phase 0).Closed ∧ Makes P (l 0) (outs' 0) (s'.loc 0)) ∨
    ((s'.phase 0).Closed ∧ Drains P (l 0) (outs' 0) (s'.loc 0))
  maker : u = 0 → ∀ a, s'.phase 0 ≠ .work a
  stage : ∀ v, v + 1 = u → runStage (P.work u) (l u) (ins' u) = some (outs' u, s'.loc u)
  before : ∀ v, v + 1 = u →
    ins u ++ ((s.phase u).taken ++ s.queue v) = ins' u ++ ((s'.phase u).taken ++ s'.queue v)
  closed : ∀ v, v + 1 = u → (s'.phase u).Closed → s'.queue v = [] ∧ s.phase v = .returned
  behind : u < P.last →
    outs' u = ins (u + 1) ++ ((s.phase (u + 1)).taken ++ (s'.queue u ++ (s'.phase u).held))

/-- **A move keeps the histories.** -/
theorem Inv.of_moves (h : Inv P l s ins outs) (hu : s.phase u ≠ .returned)
    (hm : Moves P l u s s' ins outs ins' outs') : Inv P l s' ins' outs' := by
  have hle := h.le_last hu
  refine ⟨?_, ?_, ?_, hm.cap, ?_, ?_, ?_, ?_⟩
  · by_cases h0 : u = 0
    · exact hm.source h0
    · have h0' : (0 : ℕ) ≠ u := fun he => h0 he.symm
      rw [hm.phase 0 h0', hm.loc 0 h0', hm.made 0 h0']
      exact h.source
  · intro w hw
    by_cases hwu : w + 1 = u
    · subst hwu
      exact hm.stage w rfl
    · rw [hm.taken _ hwu, hm.made _ hwu, hm.loc _ hwu]
      exact h.stage w hw
  · intro w hw
    by_cases hwu : w = u
    · subst hwu
      rw [hm.taken _ (by omega), hm.phase (w + 1) (by omega)]
      exact hm.behind hw
    rw [hm.made _ hwu, hm.phase _ hwu]
    by_cases hwu' : w + 1 = u
    · subst hwu'
      have hb := hm.before w rfl
      rw [h.link w hw, ← List.append_assoc (Phase.taken _), ← List.append_assoc, hb]
      simp only [List.append_assoc]
    · rw [hm.taken _ hwu', hm.phase _ hwu', hm.queue _ hwu hwu']
      exact h.link w hw
  · intro w hd
    rcases hm.flag w hd with hd | ⟨rfl, hr⟩
    · have hw := h.flag w hd
      have hne : w ≠ u := fun he => hu (he ▸ hw)
      rw [hm.phase w hne]
      exact hw
    · exact hr
  · intro w hw hc
    by_cases hwu : w + 1 = u
    · subst hwu
      obtain ⟨hq, hr⟩ := hm.closed w rfl hc
      exact ⟨hq, (hm.phase w (by omega)).trans hr⟩
    · rw [hm.phase _ hwu] at hc
      obtain ⟨hq, hr⟩ := h.closed w hw hc
      have hne : w ≠ u := fun he => hu (he ▸ hr)
      rw [hm.phase w hne, hm.queue w hne hwu]
      exact ⟨hq, hr⟩
  · intro a
    by_cases h0 : u = 0
    · exact hm.maker h0 a
    · rw [hm.phase 0 fun he => h0 he.symm]
      exact h.maker a
  · intro w hw
    rw [hm.phase w (by omega)]
    exact h.idle w hw

/-- Where worker `u` is, and with it what is between it and the next one. -/
theorem Inv.link_of (h : Inv P l s ins outs) {p : Phase α} (hl : u < P.last) (hp : s.phase u = p) :
    outs u = ins (u + 1) ++ ((s.phase (u + 1)).taken ++ (s.queue u ++ p.held)) := hp ▸ h.link u hl

/-- As long as worker 0 is not through. -/
theorem Inv.makes (h : Inv P l s ins outs) {p : Phase α} (hp : s.phase 0 = p) (hopen : ¬ p.Closed) :
    Makes P (l 0) (outs 0) (s.loc 0) := by
  rcases h.source with ⟨-, hmade⟩ | ⟨hclosed, -⟩
  · exact hmade
  · rw [hp] at hclosed
    exact absurd hclosed hopen

/-- Worker 0 makes an item. -/
theorem Inv.moves_made (h : Inv P l s ins outs) {a : α} {m : σ 0} (hp : s.phase 0 = .fetch)
    (hm : P.produce (s.loc 0) = some (some a, m)) :
    Moves P l 0 s ((s.setLoc 0 m).goto 0 (.push a)) ins outs ins (Function.update outs 0 (outs 0 ++ [a])) where
  phase v hv := State.goto_phase_of_ne hv ..
  loc v hv := State.setLoc_loc_of_ne hv ..
  queue _ _ _ := rfl
  taken _ _ := rfl
  made v hv := Function.update_of_ne hv ..
  cap := h.cap
  flag _ hd := .inl hd
  source _ := .inl ⟨by simp, by simpa using (h.makes hp Phase.not_closed_fetch).concat hm⟩
  maker _ _ := by simp
  stage v hv := by omega
  before v hv := by omega
  closed v hv := by omega
  behind hl := by
    have hlink := h.link_of hl hp
    simp [hlink]

/-- Worker 0 has no more. -/
theorem Inv.moves_exhausted (h : Inv P l s ins outs) {m : σ 0} (hp : s.phase 0 = .fetch)
    (hm : P.produce (s.loc 0) = some (none, m)) :
    Moves P l 0 s ((s.setLoc 0 m).goto 0 .finish) ins outs ins outs where
  phase v hv := State.goto_phase_of_ne hv ..
  loc v hv := State.setLoc_loc_of_ne hv ..
  queue _ _ _ := rfl
  taken _ _ := rfl
  made _ _ := rfl
  cap := h.cap
  flag _ hd := .inl hd
  source _ := .inr ⟨by simp, _, h.makes hp Phase.not_closed_fetch, by simpa using hm⟩
  maker _ _ := by simp
  stage v hv := by omega
  before v hv := by omega
  closed v hv := by omega
  behind hl := by
    have hlink := h.link_of hl hp
    simpa [Phase.held] using hlink

/-- A worker takes an item from its queue. -/
theorem Inv.moves_popped (h : Inv P l s ins outs) {v : ℕ} {a : α} {q : List α} (hp : s.phase (v + 1) = .fetch)
    (hq : s.queue v = a :: q) :
    Moves P l (v + 1) s ((s.setQueue v q).goto (v + 1) (.work a)) ins outs ins outs where
  phase w hw := State.goto_phase_of_ne hw ..
  loc _ _ := rfl
  queue w _ hw := State.setQueue_queue_of_ne (by omega) ..
  taken _ _ := rfl
  made _ _ := rfl
  cap w hw := by
    by_cases hwv : w = v
    · subst hwv
      have hcap := h.cap w hw
      rw [hq, List.length_cons] at hcap
      simp
      omega
    · rw [State.goto_queue, State.setQueue_queue_of_ne hwv]
      exact h.cap w hw
  flag _ hd := .inl hd
  source h0 := by omega
  maker h0 := by omega
  stage w hw := h.stage v (h.le_last (by simp [hp]))
  before w hw := by
    obtain rfl : w = v := by omega
    simp [hp, hq]
  closed w hw hc := by simp at hc
  behind hl := by
    have hlink := h.link_of hl hp
    simpa [State.setQueue_queue_of_ne] using hlink

/-- A worker finds its queue empty and marked. -/
theorem Inv.moves_through (h : Inv P l s ins outs) {v : ℕ} {p : Phase α} (hp : s.phase (v + 1) = .fetch)
    (hq : s.queue v = []) (hd : s.done v = true) (hc : p.Closed) :
    Moves P l (v + 1) s (s.goto (v + 1) p) ins outs ins outs where
  phase w hw := State.goto_phase_of_ne hw ..
  loc _ _ := rfl
  queue _ _ _ := rfl
  taken _ _ := rfl
  made _ _ := rfl
  cap := h.cap
  flag _ hd := .inl hd
  source h0 := by omega
  maker h0 := by omega
  stage w hw := h.stage v (h.le_last (by simp [hp]))
  before w hw := by simp [hp, hc.taken]
  closed w hw _ := by
    obtain rfl : w = v := by omega
    exact ⟨hq, h.flag w hd⟩
  behind hl := by
    have hlink := h.link_of hl hp
    simpa [hc.held] using hlink

/-- A worker is done with an item. -/
theorem Inv.moves_worked (h : Inv P l s ins outs) {a b : α} {m : σ u} {p : Phase α} (hp : s.phase u = .work a)
    (hw : P.work u (s.loc u) a = some (b, m)) (hpush : u < P.last → p = .push b) (hc : ¬ p.Closed)
    (hmaker : ∀ c, p ≠ .work c) :
    Moves P l u s ((s.setLoc u m).goto u p) ins outs
      (Function.update ins u (ins u ++ [a])) (Function.update outs u (outs u ++ [b])) := by
  have hpos : u ≠ 0 := by
    rintro rfl
    exact h.maker a hp
  have htaken : p.taken = [] := by
    cases p with
    | work c => exact absurd rfl (hmaker c)
    | _ => rfl
  exact
    { phase := fun v hv => State.goto_phase_of_ne hv ..
      loc := fun v hv => State.setLoc_loc_of_ne hv ..
      queue := fun _ _ _ => rfl
      taken := fun v hv => Function.update_of_ne hv ..
      made := fun v hv => Function.update_of_ne hv ..
      cap := h.cap
      flag := fun _ hd => .inl hd
      source := fun h0 => absurd h0 hpos
      maker := fun h0 => absurd h0 hpos
      stage := fun v hv => by
        subst hv
        simpa using runStage_concat (h.stage v (h.le_last (by simp [hp]))) hw
      before := fun v hv => by simp [hp, htaken]
      closed := fun v hv hcl => by
        rw [State.goto_phase_self] at hcl
        exact absurd hcl hc
      behind := fun hl => by
        have hlink := h.link_of hl hp
        simp [hlink, hpush hl] }

/-- A worker passes an item on. -/
theorem Inv.moves_pushed (h : Inv P l s ins outs) {a : α} (hp : s.phase u = .push a)
    (hcap : (s.queue u).length < P.cap) :
    Moves P l u s ((s.setQueue u (s.queue u ++ [a])).goto u .fetch) ins outs ins outs where
  phase v hv := State.goto_phase_of_ne hv ..
  loc _ _ := rfl
  queue v hv _ := State.setQueue_queue_of_ne hv ..
  taken _ _ := rfl
  made _ _ := rfl
  cap v hv := by
    by_cases hvu : v = u
    · subst hvu
      simp
      omega
    · rw [State.goto_queue, State.setQueue_queue_of_ne hvu]
      exact h.cap v hv
  flag _ hd := .inl hd
  source h0 := by
    subst h0
    exact .inl ⟨by simp, h.makes hp (Phase.not_closed_push a)⟩
  maker h0 _ := by
    subst h0
    simp
  stage v hv := by
    subst hv
    exact h.stage v (h.le_last (by simp [hp]))
  before v hv := by
    subst hv
    simp [hp, State.setQueue_queue_of_ne]
  closed v hv hc := by simp at hc
  behind hl := by
    have hlink := h.link_of hl hp
    simp [hlink]

/-- A worker that is through marks the next queue. -/
theorem Inv.moves_marked (h : Inv P l s ins outs) (hp : s.phase u = .finish) :
    Moves P l u s ({ s with done := Function.update s.done u true }.goto u .returned) ins outs ins outs where
  phase v hv := State.goto_phase_of_ne hv ..
  loc _ _ := rfl
  queue _ _ _ := rfl
  taken _ _ := rfl
  made _ _ := rfl
  cap := h.cap
  flag v hd := by
    by_cases hvu : v = u
    · exact .inr ⟨hvu, by simp⟩
    · exact .inl (by simpa [Function.update_of_ne hvu] using hd)
  source h0 := by
    subst h0
    rcases h.source with ⟨hopen, -⟩ | ⟨-, hdrained⟩
    · rw [hp] at hopen
      exact absurd Phase.closed_finish hopen
    · exact .inr ⟨by simp, hdrained⟩
  maker h0 _ := by
    subst h0
    simp
  stage v hv := by
    subst hv
    exact h.stage v (h.le_last (by simp [hp]))
  before v hv := by simp [hp]
  closed v hv _ := by
    subst hv
    exact h.closed v (h.le_last (by simp [hp])) (by rw [hp]; exact Phase.closed_finish)
  behind hl := by
    have hlink := h.link_of hl hp
    simpa [Phase.held] using hlink

/-- **A step keeps the histories**, with the item it takes or makes. -/
theorem step_inv (h : Inv P l s ins outs) (hs : step P u s = some s') :
    ∃ ins' outs', Inv P l s' ins' outs' := by
  cases step_cases hs with
  | made hp hm => exact ⟨_, _, h.of_moves (by simp [hp]) (h.moves_made hp hm)⟩
  | exhausted hp hm => exact ⟨_, _, h.of_moves (by simp [hp]) (h.moves_exhausted hp hm)⟩
  | popped hp hq => exact ⟨_, _, h.of_moves (by simp [hp]) (h.moves_popped hp hq)⟩
  | through hp hq hd hc => exact ⟨_, _, h.of_moves (by simp [hp]) (h.moves_through hp hq hd hc)⟩
  | worked hp hw hpush _ hc hmaker => exact ⟨_, _, h.of_moves (by simp [hp]) (h.moves_worked hp hw hpush hc hmaker)⟩
  | pushed hp hcap => exact ⟨_, _, h.of_moves (by simp [hp]) (h.moves_pushed hp hcap)⟩
  | marked hp => exact ⟨_, _, h.of_moves (by simp [hp]) (h.moves_marked hp)⟩

/-- What a worker has in its hands has what the worker before it gives everything. -/
theorem Inv.work_of (h : Inv P l s ins outs) {Q : α → Prop}
    (hQ : ∀ t a b t', P.work (u + 1) t a = some (b, t') → Q b) {a : α} (ha : s.phase (u + 2) = .work a) : Q a := by
  have hle : u + 2 ≤ P.last := h.le_last (by rw [ha]; simp)
  have hmem : a ∈ outs (u + 1) := by
    rw [h.link (u + 1) (by omega), ha]
    simp
  have hall : ∀ (as : List α) (t : σ (u + 1)) (bs : List α) (t' : σ (u + 1)),
      runStage (P.work (u + 1)) t as = some (bs, t') → ∀ b ∈ bs, Q b := by
    intro as
    induction as with
    | nil =>
      intro t bs t' hrun
      obtain ⟨rfl, -⟩ := Prod.mk.inj (Option.some.inj hrun)
      simp
    | cons x as ih =>
      intro t bs t' hrun
      obtain ⟨y, t₁, ys, hy, hrest, rfl⟩ := runStage_cons hrun
      intro b hb
      rcases List.mem_cons.1 hb with rfl | hb
      · exact hQ _ _ _ _ hy
      · exact ih _ _ _ hrest b hb
  exact hall _ _ _ _ (h.stage u (by omega)) a hmem

/-- **When all workers have returned**, every item has gone all the way. -/
theorem Inv.of_returned (h : Inv P l s ins outs) (hall : s.AllReturned) :
    Drains P (l 0) (outs 0) (s.loc 0) ∧
      ∀ w, w < P.last → s.queue w = [] ∧ ins (w + 1) = outs w := by
  refine ⟨?_, fun w hw => ?_⟩
  · rcases h.source with ⟨hc, -⟩ | ⟨-, hd⟩
    · rw [hall 0] at hc; exact absurd Phase.closed_returned hc
    · exact hd
  · obtain ⟨hq, -⟩ := h.closed w hw (by rw [hall]; exact Phase.closed_returned)
    have hlink := h.link w hw
    rw [hall, hall, hq] at hlink
    exact ⟨hq, by simpa using hlink.symm⟩

end Step

/-! ## One item after the other -/

variable (P)

/-- An item through workers `1, ..., k`. -/
def pass : ℕ → α → (∀ w, σ w) → Option (α × ∀ w, σ w)
  | 0, a, l => some (a, l)
  | k + 1, a, l => do
    let (b, l) ← pass k a l
    let (c, t) ← P.work (k + 1) (l (k + 1)) b
    some (c, Function.update l (k + 1) t)

/-- Items through all workers, one after the other. -/
def passAll (as : List α) (l : ∀ w, σ w) : Option (∀ w, σ w) :=
  as.foldlM (fun l a => (pass P P.last a l).map Prod.snd) l

variable {P}

/-- An item through the workers, from what each of them makes of it. -/
theorem pass_of_works {l : ∀ w, σ w} {b : ℕ → α} {t : ∀ w, σ (w + 1)} : ∀ {k : ℕ},
    (∀ w, w < k → P.work (w + 1) (l (w + 1)) (b w) = some (b (w + 1), t w)) →
    ∃ l', pass P k (b 0) l = some (b k, l') ∧ (∀ w, w < k → l' (w + 1) = t w) ∧
      l' 0 = l 0 ∧ ∀ w, k < w → l' w = l w := by
  intro k
  induction k with
  | zero => intro _; exact ⟨l, rfl, fun w hw => by omega, rfl, fun _ _ => rfl⟩
  | succ k ih =>
    intro hw
    obtain ⟨l₁, hp, h₁, h0, h₂⟩ := ih fun w hk => hw w (by omega)
    refine ⟨Function.update l₁ (k + 1) (t k), ?_, fun w hk => ?_, ?_, fun w hk => ?_⟩
    · simp [pass, hp, h₂ (k + 1) (by omega), hw k (by omega)]
    · by_cases hwk : w = k
      · subst hwk; exact Function.update_self ..
      · rw [Function.update_of_ne (by omega)]
        exact h₁ w (by omega)
    · rw [Function.update_of_ne (by omega)]
      exact h0
    · rw [Function.update_of_ne (by omega)]
      exact h₂ w (by omega)

/-- **Stage by stage is item by item.** -/
theorem passAll_of_stages {ins outs : ℕ → List α} {l l' : ∀ w, σ w} (hlink : ∀ w, w < P.last → ins (w + 1) = outs w)
    (hstage : ∀ w, w < P.last →
      runStage (P.work (w + 1)) (l (w + 1)) (ins (w + 1)) = some (outs (w + 1), l' (w + 1))) :
    ∃ l'', passAll P (outs 0) l = some l'' ∧ ∀ w, w < P.last → l'' (w + 1) = l' (w + 1) := by
  generalize has : outs 0 = as
  induction as generalizing ins outs l with
  | nil =>
    -- nothing was made, so nothing was taken
    have hnil : ∀ w, w ≤ P.last → outs w = [] := by
      intro w
      induction w with
      | zero => intro _; exact has
      | succ w ih =>
        intro hw
        have h := hstage w hw
        rw [hlink w hw, ih (by omega)] at h
        exact (Prod.mk.inj (Option.some.inj h)).1.symm
    refine ⟨l, rfl, fun w hw => ?_⟩
    have h := hstage w hw
    rw [hlink w hw, hnil w (by omega)] at h
    exact (Prod.mk.inj (Option.some.inj h)).2
  | cons a as ih =>
    have hcons : ∀ w, w ≤ P.last → ∃ b bs, outs w = b :: bs := by
      intro w
      induction w with
      | zero => intro _; exact ⟨a, as, has⟩
      | succ w ih =>
        intro hw
        obtain ⟨b, bs, hb⟩ := ih (by omega)
        have h := hstage w hw
        rw [hlink w hw, hb] at h
        obtain ⟨c, -, cs, -, -, hc⟩ := runStage_cons h
        exact ⟨c, cs, hc⟩
    have hhead : ∀ w, ∃ b, w ≤ P.last → outs w = b :: (outs w).tail := fun w => by
      by_cases hw : w ≤ P.last
      · obtain ⟨b, bs, hb⟩ := hcons w hw
        exact ⟨b, fun _ => by rw [hb]; rfl⟩
      · exact ⟨a, fun h => absurd h hw⟩
    choose b hb using hhead
    have hwork : ∀ w, ∃ t, w < P.last → P.work (w + 1) (l (w + 1)) (b w) = some (b (w + 1), t) ∧
        runStage (P.work (w + 1)) t (outs w).tail = some ((outs (w + 1)).tail, l' (w + 1)) := fun w => by
      by_cases hw : w < P.last
      · have h := hstage w hw
        rw [hlink w hw, hb w (by omega)] at h
        obtain ⟨c, t, cs, hc, hrest, hcs⟩ := runStage_cons h
        rw [hb (w + 1) hw] at hcs
        obtain ⟨rfl, rfl⟩ := List.cons.inj hcs
        exact ⟨t, fun _ => ⟨hc, hrest⟩⟩
      · exact ⟨l (w + 1), fun h => absurd h hw⟩
    choose t ht using hwork
    have hb0 : b 0 = a ∧ (outs 0).tail = as := by
      have h := hb 0 (Nat.zero_le _)
      rw [has] at h ⊢
      exact ⟨(List.cons.inj h).1.symm, rfl⟩
    obtain ⟨l₁, hp, h₁, -, -⟩ := pass_of_works fun w hw => (ht w hw).1
    obtain ⟨l₂, hl₂, heq⟩ := @ih (fun w => (ins w).tail) (fun w => (outs w).tail) l₁
      (fun w hw => by rw [hlink w hw]) (fun w hw => by rw [h₁ w hw, hlink w hw]; exact (ht w hw).2) hb0.2
    refine ⟨l₂, ?_, heq⟩
    unfold passAll at hl₂ ⊢
    rw [List.foldlM_cons, ← hb0.1, hp]
    exact hl₂

/-- **When all workers have returned**, they are where passing the items on one after the other leads, and the
queues are empty. -/
theorem Inv.passed {l : ∀ w, σ w} {s : State σ α} {ins outs : ℕ → List α} (h : Inv P l s ins outs)
    (hall : s.AllReturned) : ∃ l', Drains P (l 0) (outs 0) (s.loc 0) ∧ passAll P (outs 0) l = some l' ∧
      (∀ w, w < P.last → l' (w + 1) = s.loc (w + 1)) ∧ ∀ w, w < P.last → s.queue w = [] := by
  obtain ⟨hd, hlink⟩ := h.of_returned hall
  obtain ⟨l', hp, hl'⟩ := passAll_of_stages (fun w hw => (hlink w hw).2) h.stage
  exact ⟨l', hd, hp, hl', fun w hw => (hlink w hw).1⟩

end BoundedPipeline
