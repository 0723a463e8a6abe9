import ChunkGrouping.Lib.Pipeline

/-!
# A schedule that runs a pipeline to its end

When worker 0 drains and every item can be passed through the workers, one item at a
time is a schedule: it is made, handed from worker to worker and taken up by the last
one before the next is made; then the workers return, one after the other.

* `Waiting`: all workers wait, with the items of one queue between them.
* `make_ok`, `hand_ok`, `absorb_ok`: an item on its way; `items_ok`: all items.
* `exists_run`: the schedule.
-/

namespace BoundedPipeline

variable {σ : ℕ → Type} {α : Type} {P : Program σ α} {s : State σ α} {k : ℕ} {a b : α}

theorem run_append {s₁ s₂ : State σ α} {ws vs : List ℕ} (h : run P ws s = some s₁) (h' : run P vs s₁ = some s₂) :
    run P (ws ++ vs) s = some s₂ := by
  unfold run at h h' ⊢
  rw [List.foldlM_append, h]
  exact h'

theorem run_cons {s₁ : State σ α} {w : ℕ} {ws : List ℕ} (h : step P w s = some s₁) :
    run P (w :: ws) s = run P ws s₁ := by
  unfold run
  rw [List.foldlM_cons, h]
  rfl

theorem run_one {s₁ : State σ α} {w : ℕ} (h : step P w s = some s₁) : run P [w] s = some s₁ := run_cons h

/-- What is made first. -/
theorem Makes.cons {l l₁ n : σ 0} {as : List α} (h : Makes P l₁ as n) (hm : P.produce l = some (some a, l₁)) :
    Makes P l (a :: as) n := by
  induction h with
  | nil => exact (Makes.nil l).concat hm
  | concat _ hb ih => exact ih.concat hb

/-- **All workers wait**, and queue `k` holds `as`. -/
structure Waiting (P : Program σ α) (s : State σ α) (k : ℕ) (as : List α) : Prop where
  phase : ∀ w, w ≤ P.last → s.phase w = .fetch
  idle : ∀ w, P.last < w → s.phase w = .returned
  queue : ∀ w, w < P.last → s.queue w = if w = k then as else []

/-- Worker 0 makes an item. -/
theorem make_ok (h : Waiting P s k []) (hlast : 0 < P.last) (hcap : 0 < P.cap) {l : σ 0}
    (hm : P.produce (s.loc 0) = some (some a, l)) :
    ∃ s', run P [0, 0] s = some s' ∧ Waiting P s' 0 [a] ∧ s'.loc = Function.update s.loc 0 l := by
  have hq : ∀ w, w < P.last → s.queue w = [] := fun w hw => by rw [h.queue w hw, ite_self]
  have h₁ : step P 0 s = some ((s.setLoc 0 l).goto 0 (.push a)) := by
    simp [step, h.phase 0 (Nat.zero_le _), hm]
  have h₂ : step P 0 ((s.setLoc 0 l).goto 0 (.push a)) =
      some ((((s.setLoc 0 l).goto 0 (.push a)).setQueue 0 [a]).goto 0 .fetch) := by
    simp [step, hq 0 hlast, hcap]
  refine ⟨_, (run_cons h₁).trans (run_one h₂), ⟨fun w hw => ?_, fun w hw => ?_, fun w hw => ?_⟩, rfl⟩
  · by_cases hw0 : w = 0
    · subst hw0; simp
    · rw [State.goto_phase_of_ne hw0, State.setQueue_phase, State.goto_phase_of_ne hw0]
      exact h.phase w hw
  · rw [State.goto_phase_of_ne (by omega), State.setQueue_phase, State.goto_phase_of_ne (by omega)]
    exact h.idle w hw
  · by_cases hw0 : w = 0
    · subst hw0; simp
    · rw [if_neg hw0, State.goto_queue, State.setQueue_queue_of_ne hw0]
      exact hq w hw

/-- A worker takes an item and works on it. -/
theorem take_ok (h : Waiting P s k [a]) (hk : k < P.last) {l : σ (k + 1)}
    (hw : P.work (k + 1) (s.loc (k + 1)) a = some (b, l)) :
    ∃ s', run P [k + 1, k + 1] s = some s' ∧ s'.phase (k + 1) = (if k + 1 = P.last then .fetch else .push b) ∧
      (∀ w, w ≠ k + 1 → s'.phase w = s.phase w) ∧ (∀ w, w < P.last → s'.queue w = []) ∧
      s'.loc = Function.update s.loc (k + 1) l := by
  have hq : s.queue k = [a] := by rw [h.queue k hk, if_pos rfl]
  have h₁ : step P (k + 1) s = some ((s.setQueue k []).goto (k + 1) (.work a)) := by
    simp [step, h.phase (k + 1) hk, hq]
  have h₂ : step P (k + 1) ((s.setQueue k []).goto (k + 1) (.work a)) =
      some ((((s.setQueue k []).goto (k + 1) (.work a)).setLoc (k + 1) l).goto (k + 1)
        (if k + 1 = P.last then .fetch else .push b)) := by
    simp [step, hw]
  refine ⟨_, (run_cons h₁).trans (run_one h₂), by simp, fun w hne => ?_, fun w hlt => ?_, rfl⟩
  · rw [State.goto_phase_of_ne hne, State.setLoc_phase, State.goto_phase_of_ne hne]
    rfl
  · by_cases hwk : w = k
    · subst hwk; simp
    · rw [State.goto_queue, State.setLoc_queue, State.goto_queue, State.setQueue_queue_of_ne hwk, h.queue w hlt,
        if_neg hwk]

/-- A worker hands an item on. -/
theorem hand_ok (h : Waiting P s k [a]) (hk : k + 1 < P.last) (hcap : 0 < P.cap) {l : σ (k + 1)}
    (hw : P.work (k + 1) (s.loc (k + 1)) a = some (b, l)) :
    ∃ ws s', run P ws s = some s' ∧ Waiting P s' (k + 1) [b] ∧ s'.loc = Function.update s.loc (k + 1) l := by
  obtain ⟨s₁, hrun, hph, hne, hq, hloc⟩ := take_ok h (by omega) hw
  rw [if_neg (by omega)] at hph
  have hstep : step P (k + 1) s₁ = some ((s₁.setQueue (k + 1) [b]).goto (k + 1) .fetch) := by
    simp [step, hph, hq (k + 1) hk, hcap]
  refine ⟨_, _, run_append hrun (run_one hstep), ⟨fun w hw => ?_, fun w hw => ?_, fun w hw => ?_⟩, hloc⟩
  · by_cases hwk : w = k + 1
    · subst hwk; simp
    · rw [State.goto_phase_of_ne hwk, State.setQueue_phase, hne w hwk]
      exact h.phase w hw
  · rw [State.goto_phase_of_ne (by omega), State.setQueue_phase, hne w (by omega)]
    exact h.idle w hw
  · by_cases hwk : w = k + 1
    · subst hwk; simp
    · rw [if_neg hwk, State.goto_queue, State.setQueue_queue_of_ne hwk, hq w hw]

/-- The last worker keeps it. -/
theorem absorb_ok (h : Waiting P s k [a]) (hk : k + 1 = P.last) {l : σ (k + 1)}
    (hw : P.work (k + 1) (s.loc (k + 1)) a = some (b, l)) :
    ∃ ws s', run P ws s = some s' ∧ Waiting P s' 0 [] ∧ s'.loc = Function.update s.loc (k + 1) l := by
  obtain ⟨s₁, hrun, hph, hne, hq, hloc⟩ := take_ok h (by omega) hw
  rw [if_pos hk] at hph
  refine ⟨_, s₁, hrun, ⟨fun w hw => ?_, fun w hw => ?_, fun w hw => by rw [hq w hw, ite_self]⟩, hloc⟩
  · by_cases hwk : w = k + 1
    · rw [hwk, hph]
    · rw [hne w hwk]
      exact h.phase w hw
  · rw [hne w (by omega)]
    exact h.idle w hw

/-- **An item on its way** through workers `1, ..., k`. -/
theorem pass_ok (hcap : 0 < P.cap) (h : Waiting P s 0 [a]) :
    ∀ {k : ℕ} {b : α} {l : ∀ w, σ w}, k < P.last → pass P k a s.loc = some (b, l) →
      ∃ ws s', run P ws s = some s' ∧ Waiting P s' k [b] ∧ s'.loc = l := by
  intro k
  induction k with
  | zero =>
    intro b l _ hp
    obtain ⟨rfl, rfl⟩ := Prod.mk.inj (Option.some.inj hp)
    exact ⟨[], s, rfl, h, rfl⟩
  | succ k ih =>
    intro b l hk hp
    simp only [pass, Option.bind_eq_bind, Option.bind_eq_some_iff, Option.some.injEq, Prod.mk.injEq] at hp
    obtain ⟨⟨b₁, l₁⟩, hp, ⟨c, t⟩, hw, rfl, rfl⟩ := hp
    obtain ⟨ws, s₁, hrun, hwait, rfl⟩ := ih (by omega) hp
    obtain ⟨vs, s₂, hrun', hwait', hloc⟩ := hand_ok hwait hk hcap hw
    exact ⟨ws ++ vs, s₂, run_append hrun hrun', hwait', hloc⟩

/-- The workers do not look at worker 0's state. -/
theorem pass_update (a : α) (l : ∀ w, σ w) (x : σ 0) : ∀ k : ℕ,
    pass P k a (Function.update l 0 x) = (pass P k a l).map fun r => (r.1, Function.update r.2 0 x) := by
  intro k
  induction k with
  | zero => rfl
  | succ k ih =>
    rw [pass, pass, ih]
    cases hp : pass P k a l with
    | none => rfl
    | some r =>
      obtain ⟨b, l₁⟩ := r
      simp only [Option.map_some, Option.bind_eq_bind, Option.bind_some]
      rw [Function.update_of_ne (by omega)]
      cases P.work (k + 1) (l₁ (k + 1)) b with
      | none => rfl
      | some r =>
        simp only [Option.bind_some, Option.map_some]
        rw [Function.update_comm (by omega)]

/-- **An item all the way.** -/
theorem item_ok (h : Waiting P s k []) (hlast : 0 < P.last) (hcap : 0 < P.cap) {l : σ 0} {l' : ∀ w, σ w}
    (hm : P.produce (s.loc 0) = some (some a, l)) (hp : pass P P.last a s.loc = some (b, l')) :
    ∃ ws s', run P ws s = some s' ∧ Waiting P s' 0 [] ∧ s'.loc = Function.update l' 0 l := by
  obtain ⟨n, hn⟩ : ∃ n, P.last = n + 1 := ⟨P.last - 1, by omega⟩
  obtain ⟨s₁, hrun, hwait, hloc⟩ := make_ok h hlast hcap hm
  have hp' := pass_update (P := P) a s.loc l P.last
  rw [hp, ← hloc, hn] at hp'
  simp only [pass, Option.map_some, Option.bind_eq_bind, Option.bind_eq_some_iff, Option.some.injEq,
    Prod.mk.injEq] at hp'
  obtain ⟨⟨b₁, l₁⟩, hpass, ⟨c, t⟩, hw, -, ht⟩ := hp'
  obtain ⟨ws, s₂, hrun₂, hwait₂, rfl⟩ := pass_ok hcap hwait (by omega) hpass
  obtain ⟨vs, s₃, hrun₃, hwait₃, hloc₃⟩ := absorb_ok hwait₂ hn.symm hw
  exact ⟨_, s₃, run_append hrun (run_append hrun₂ hrun₃), hwait₃, hloc₃.trans ht⟩

/-- **All items**, one after the other. -/
theorem items_ok (hlast : 0 < P.last) (hcap : 0 < P.cap) (h : Waiting P s k []) {as : List α} {m : σ 0}
    (hm : Makes P (s.loc 0) as m) {l : ∀ w, σ w} (hp : passAll P as s.loc = some l) :
    ∃ ws s' k', run P ws s = some s' ∧ Waiting P s' k' [] ∧ s'.loc = Function.update l 0 m := by
  generalize hl₀ : s.loc 0 = l₀ at hm
  induction hm generalizing l with
  | nil =>
    obtain rfl := Option.some.inj hp
    exact ⟨[], s, k, rfl, h, by rw [← hl₀, Function.update_eq_self]⟩
  | @concat m n as a hm hmake ih =>
    unfold passAll at hp ih
    rw [List.foldlM_append, Option.bind_eq_bind, Option.bind_eq_some_iff] at hp
    obtain ⟨l₁, h₁, hp⟩ := hp
    rw [List.foldlM_cons, Option.bind_eq_bind, Option.bind_eq_some_iff] at hp
    obtain ⟨l₂, h₂, he⟩ := hp
    obtain rfl := Option.some.inj he
    obtain ⟨⟨b, l₃⟩, hpass, rfl⟩ := Option.map_eq_some_iff.1 h₂
    obtain ⟨ws, s₁, k₁, hrun, hwait, hloc⟩ := ih h₁
    have hpass' : pass P P.last a s₁.loc = some (b, Function.update l₃ 0 m) := by
      rw [hloc, pass_update, hpass]
      rfl
    obtain ⟨vs, s₂, hrun', hwait', hloc'⟩ := item_ok hwait hlast hcap
      (by rw [hloc, Function.update_self]; exact hmake) hpass'
    exact ⟨ws ++ vs, s₂, 0, run_append hrun hrun', hwait', by rw [hloc', Function.update_idem]⟩

/-- Workers `0, ..., k` have returned, the others wait. -/
structure Closing (P : Program σ α) (s : State σ α) (k : ℕ) : Prop where
  returned : ∀ w, w ≤ k ∨ P.last < w → s.phase w = .returned
  waiting : ∀ w, k < w → w ≤ P.last → s.phase w = .fetch
  queue : ∀ w, w < P.last → s.queue w = []
  done : k < P.last → s.done k = true

/-- Worker 0 finds that there is no more. -/
theorem exhaust_ok (h : Waiting P s k []) {l : σ 0} (hm : P.produce (s.loc 0) = some (none, l)) :
    ∃ s', run P [0, 0] s = some s' ∧ Closing P s' 0 ∧ s'.loc = Function.update s.loc 0 l := by
  have h₁ : step P 0 s = some ((s.setLoc 0 l).goto 0 .finish) := by
    simp [step, h.phase 0 (Nat.zero_le _), hm]
  set s₁ := (s.setLoc 0 l).goto 0 (.finish : Phase α) with hs₁
  have h₂ : step P 0 s₁ = some ({ s₁ with done := Function.update s₁.done 0 true }.goto 0 .returned) := by
    simp [step, hs₁]
  refine ⟨_, (run_cons h₁).trans (run_one h₂), ⟨fun w hw => ?_, fun w hw hl => ?_, fun w hw => ?_, fun _ => ?_⟩, rfl⟩
  · by_cases hw0 : w = 0
    · subst hw0; simp
    · rw [State.goto_phase_of_ne hw0]
      simp only [hs₁]
      rw [State.goto_phase_of_ne hw0]
      exact h.idle w (by omega)
  · rw [State.goto_phase_of_ne (by omega)]
    simp only [hs₁]
    rw [State.goto_phase_of_ne (by omega)]
    exact h.phase w hl
  · have hq := h.queue w hw
    rwa [ite_self] at hq
  · simp

/-- The next worker finds its queue empty and done. -/
theorem close_ok (h : Closing P s k) (hk : k < P.last) :
    ∃ ws s', run P ws s = some s' ∧ Closing P s' (k + 1) ∧ s'.loc = s.loc := by
  have h₁ : step P (k + 1) s = some (s.goto (k + 1) (if k + 1 = P.last then .returned else .finish)) := by
    simp [step, h.waiting (k + 1) (by omega) hk, h.queue k hk, h.done hk]
  by_cases hl : k + 1 = P.last
  · rw [if_pos hl] at h₁
    refine ⟨_, _, run_one h₁, ⟨fun w hw => ?_, fun w hw hle => ?_, h.queue, fun hlt => ?_⟩, rfl⟩
    · by_cases hwk : w = k + 1
      · subst hwk; simp
      · rw [State.goto_phase_of_ne hwk]
        exact h.returned w (by omega)
    · omega
    · omega
  · rw [if_neg hl] at h₁
    set s₁ := s.goto (k + 1) (.finish : Phase α) with hs₁
    have h₂ : step P (k + 1) s₁ =
        some ({ s₁ with done := Function.update s₁.done (k + 1) true }.goto (k + 1) .returned) := by
      simp [step, hs₁]
    refine ⟨_, _, (run_cons h₁).trans (run_one h₂), ⟨fun w hw => ?_, fun w hw hle => ?_, h.queue, fun _ => ?_⟩, rfl⟩
    · by_cases hwk : w = k + 1
      · subst hwk; simp
      · rw [State.goto_phase_of_ne hwk]
        simp only [hs₁]
        rw [State.goto_phase_of_ne hwk]
        exact h.returned w (by omega)
    · rw [State.goto_phase_of_ne (by omega)]
      simp only [hs₁]
      rw [State.goto_phase_of_ne (by omega)]
      exact h.waiting w (by omega) hle
    · simp

/-- All of them return. -/
theorem closing_returned : ∀ {n k : ℕ} {s : State σ α}, Closing P s k → k + n = P.last →
    ∃ ws s', run P ws s = some s' ∧ Closing P s' P.last ∧ s'.loc = s.loc := by
  intro n
  induction n with
  | zero => intro k s h hk; exact ⟨[], s, rfl, (show k = P.last from hk) ▸ h, rfl⟩
  | succ n ih =>
    intro k s h hk
    obtain ⟨ws, s₁, hrun, h₁, hloc⟩ := close_ok h (by omega)
    obtain ⟨vs, s₂, hrun', h₂, hloc'⟩ := ih h₁ (by omega)
    exact ⟨ws ++ vs, s₂, run_append hrun hrun', h₂, hloc'.trans hloc⟩

/-- **A schedule to the end**, when worker 0 drains and its items pass. -/
theorem exists_run (hlast : 0 < P.last) (hcap : 0 < P.cap) (hq : ∀ w, w < P.last → s.queue w = [])
    {as : List α} {m : σ 0} {l : ∀ w, σ w} (hd : Drains P (s.loc 0) as m) (hp : passAll P as s.loc = some l) :
    ∃ ws s', run P ws (restart P s) = some s' ∧ s'.AllReturned ∧ (∀ w, w < P.last → s'.queue w = []) ∧
      s'.loc = Function.update l 0 m := by
  have hwait : Waiting P (restart P s) 0 [] :=
    ⟨fun w hw => if_pos hw, fun w hw => if_neg (by omega), fun w hw => by rw [ite_self]; exact hq w hw⟩
  obtain ⟨m₁, hmakes, hnone⟩ := hd
  obtain ⟨ws, s₁, k, hrun, hwait', hloc⟩ := items_ok hlast hcap hwait hmakes hp
  obtain ⟨s₂, hrun₂, hclose, hloc₂⟩ := exhaust_ok hwait' (by rw [hloc, Function.update_self]; exact hnone)
  obtain ⟨vs, s₃, hrun₃, hret, hloc₃⟩ := closing_returned hclose (Nat.zero_add _)
  refine ⟨_, s₃, run_append hrun (run_append hrun₂ hrun₃), fun w => hret.returned w (by omega), hret.queue, ?_⟩
  rw [hloc₃, hloc₂, hloc, Function.update_idem]

end BoundedPipeline
