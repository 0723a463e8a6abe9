import ChunkGrouping.Proof.PipelineLocks

/-!
# What a worker at the locks can do

A step of a worker is one of nine (`LockedState.Does`), whatever the workers do with the items. Three
things hold of every state the workers get to, heard or not (`Coherent`): each worker is where its
number allows, has an item from `get_context_from_queue` only behind its pop, and pops or pushes only
where its predicate holds. Nobody but the writer fills a queue and nobody but the reader empties it,
so what a worker has tested stays true without any lock.

* `LockedState.step_cases`: a step is one of the nine.
* `LockedState.Coherent.step`: a step keeps the three.
* `LockedState.Exclusive.step`: the locks do exclude; `LockedState.Exclusive.queue_step`: a queue is
  changed under its lock.
-/

namespace ChunkGrouping

open BoundedPipeline

variable {σ : ℕ → Type} {α : Type} {P : Program σ α} {s s' : LockedState σ α} {v w x : ℕ}

namespace LockedState

/-- **What a step of worker `w` can be.** -/
inductive Does (P : Program σ α) (s : LockedState σ α) : ℕ → LockedState σ α → Prop
  | made {a : α} {l : σ 0} : s.pc 0 = .produce → P.produce (s.loc 0) = some (some a, l) →
      Does P s 0 ((s.setLoc 0 l).goto 0 (.queue (.write a) .lock))
  | exhausted {l : σ 0} : s.pc 0 = .produce → P.produce (s.loc 0) = some (none, l) →
      Does P s 0 ((s.setLoc 0 l).goto 0 .setDone)
  | worked {w : ℕ} {a b : α} {l : σ w} : s.pc w = .work a → P.work w (s.loc w) a = some (b, l) →
      Does P s w ((s.setLoc w l).goto w (if w = P.last then .queue (.get none) .lock else .queue (.write b) .lock))
  | failedToMake : s.pc 0 = .produce → P.produce (s.loc 0) = none → Does P s 0 (s.goto 0 .crashed)
  | failedToWork {w : ℕ} {a : α} : s.pc w = .work a → P.work w (s.loc w) a = none → Does P s w (s.goto w .crashed)
  | moved {w : ℕ} {m : QueueMacro α} {point : Point} {p : Pc α} {q : List α} {o : Option ℕ} :
      s.pc w = .queue m point →
      MacroStep P w (s.ready P w m) m point (s.queue (m.queueOf w)) (s.owner (m.queueOf w)) p q o →
      Does P s w (((s.setQueue (m.queueOf w) q).setOwner (m.queueOf w) o).goto w p)
  | notified {w : ℕ} {m : QueueMacro α} : s.pc w = .queue m .notify →
      Does P s w ((s.notifyAll (m.queueOf w)).goto w (.queue m .unlock))
  | marked {w : ℕ} : s.pc w = .setDone → Does P s w ((s.setDone w).goto w .notifyDone)
  | left {w : ℕ} : s.pc w = .notifyDone → Does P s w ((s.notifyAll w).goto w .returned)

theorem step_cases (h : s.step P w = some s') : Does P s w s' := by
  unfold step at h
  cases hp : s.pc w with
  | produce =>
    rw [hp] at h
    cases w with
    | succ w => cases h
    | zero =>
      simp only at h
      cases hm : P.produce (s.loc 0) with
      | none =>
        rw [hm] at h
        obtain rfl := Option.some.inj h
        exact .failedToMake hp hm
      | some r =>
        obtain ⟨_ | a, l⟩ := r <;> rw [hm] at h <;> obtain rfl := Option.some.inj h
        · exact .exhausted hp hm
        · exact .made hp hm
  | queue m point =>
    rw [hp] at h
    rcases stepMacro_cases h with ⟨rfl, rfl⟩ | ⟨p, q, o, hm, rfl⟩
    · exact .notified hp
    · exact .moved hp hm
  | work a =>
    rw [hp] at h
    simp only at h
    cases hm : P.work w (s.loc w) a with
    | none =>
      rw [hm] at h
      obtain rfl := Option.some.inj h
      exact .failedToWork hp hm
    | some r =>
      obtain ⟨b, l⟩ := r
      rw [hm] at h
      obtain rfl := Option.some.inj h
      exact .worked hp hm
  | setDone =>
    rw [hp] at h
    obtain rfl := Option.some.inj h
    exact .marked hp
  | notifyDone =>
    rw [hp] at h
    obtain rfl := Option.some.inj h
    exact .left hp
  | returned => rw [hp] at h; cases h
  | crashed => rw [hp] at h; cases h

end LockedState

/-! ## What holds in every state -/

/-- **Worker `w` at `p`**, where `ready` says if the predicate of a macro holds. -/
structure Pc.Coherent (last w : ℕ) (ready : QueueMacro α → Bool) (p : Pc α) : Prop where
  fits : p.Fits last w
  fresh : ∀ a point, p = .queue (.get (some a)) point → point = .notify ∨ point = .unlock
  tested : ∀ m, p = .queue m .body → ready m = true

/-- **All workers.** -/
def LockedState.Coherent (P : Program σ α) (s : LockedState σ α) : Prop :=
  ∀ w, (s.pc w).Coherent P.last w (s.ready P w)

/-- Somewhere else than in a macro. -/
theorem Pc.Coherent.of_outside {last : ℕ} {ready : QueueMacro α → Bool} {p : Pc α} (hfits : p.Fits last w)
    (hout : ∀ m point, p ≠ .queue m point) : p.Coherent last w ready :=
  ⟨hfits, fun _ _ h => absurd h (hout _ _), fun _ h => absurd h (hout _ _)⟩

/-- At the start of one. -/
theorem Pc.Coherent.of_lock {last : ℕ} {ready : QueueMacro α → Bool} {m : QueueMacro α} {point : Point}
    (hfits : (Pc.queue m point).Fits last w) (hpoint : point ≠ .body) (hfresh : ∀ a, m ≠ .get (some a)) :
    (Pc.queue m point).Coherent last w ready :=
  ⟨hfits, fun a _ h => absurd (Pc.queue.inj h).1 (hfresh a), fun _ h => absurd (Pc.queue.inj h).2 hpoint⟩

/-- To be woken changes nothing of it. -/
theorem Pc.Coherent.wake {last : ℕ} {ready : QueueMacro α → Bool} {m : QueueMacro α}
    (h : (Pc.queue m .blocked).Coherent last w ready) : (Pc.queue m .wake).Coherent last w ready := by
  refine ⟨?_, fun a point he => ?_, fun m' he => by cases he⟩
  · have hfits := h.fits
    cases m <;> exact hfits
  · obtain ⟨rfl, rfl⟩ := Pc.queue.inj he
    rcases h.fresh a .blocked rfl with h | h <;> cases h

theorem LockedState.Coherent.notifyAll (h : s.Coherent P) (x : ℕ) : (s.notifyAll x).Coherent P := by
  intro u
  rcases pc_notifyAll x u s with ⟨m, -, hm, hw⟩ | ⟨-, hw⟩
  · rw [hw]
    have hu := h u
    rw [hm] at hu
    exact hu.wake
  · rw [hw]
    exact h u

/-- A reader puts nothing into its queue. -/
theorem MacroStep.length_le {ready : Bool} {z : Option α} {point : Point} {p : Pc α} {q q' : List α} {o o' : Option ℕ}
    (h : MacroStep P w ready (.get z) point q o p q' o') : q'.length ≤ q.length := by
  cases h <;> simp

/-- A writer takes nothing from its queue. -/
theorem MacroStep.ne_nil {ready : Bool} {a : α} {point : Point} {p : Pc α} {q q' : List α} {o o' : Option ℕ}
    (h : MacroStep P w ready (.write a) point q o p q' o') (hq : q ≠ []) : q' ≠ [] := by
  cases h <;> simp [hq]

/-- **A queue's reader and its writer do not spoil what the other has tested.** -/
theorem MacroStep.ready_mono {ready : Bool} {m : QueueMacro α} {point : Point} {p : Pc α} {q : List α} {o : Option ℕ}
    (hs : MacroStep P w ready m point (s.queue (m.queueOf w)) (s.owner (m.queueOf w)) p q o)
    (hw : (Pc.queue m point).Fits P.last w) {u : ℕ} (hu : u ≠ w) {m' : QueueMacro α} {point' : Point}
    (hu' : (Pc.queue m' point').Fits P.last u) (hr : s.ready P u m' = true) :
    (((s.setQueue (m.queueOf w) q).setOwner (m.queueOf w) o).goto w p).ready P u m' = true := by
  have hother : m'.queueOf u ≠ m.queueOf w →
      (((s.setQueue (m.queueOf w) q).setOwner (m.queueOf w) o).goto w p).ready P u m' = true := by
    intro hne
    have hsame : (((s.setQueue (m.queueOf w) q).setOwner (m.queueOf w) o).goto w p).queue (m'.queueOf u) =
        s.queue (m'.queueOf u) := LockedState.setQueue_queue_of_ne hne ..
    cases m' <;> simp only [LockedState.ready, hsame] at hr ⊢ <;> exact hr
  cases m with
  | get z =>
    obtain ⟨v, rfl⟩ : ∃ v, w = v + 1 := ⟨w - 1, by have := hw.1; omega⟩
    cases m' with
    | get z' =>
      refine hother ?_
      have h0 := hu'.1
      simp only [QueueMacro.queueOf]
      omega
    | write a =>
      by_cases hv : u = v
      · subst hv
        rw [LockedState.ready_write, decide_eq_true_eq] at hr ⊢
        exact lt_of_le_of_lt (by simpa using hs.length_le) hr
      · exact hother hv
  | write b =>
    cases m' with
    | write a => exact hother hu
    | get z' =>
      obtain ⟨v, rfl⟩ : ∃ v, u = v + 1 := ⟨u - 1, by have := hu'.1; omega⟩
      by_cases hv : v = w
      · subst hv
        rw [LockedState.ready_get, Bool.or_eq_true, Bool.not_eq_true', List.isEmpty_eq_false_iff] at hr ⊢
        rcases hr with hr | hr
        · exact .inl (by simpa using hs.ne_nil hr)
        · exact .inr (by simpa using hr)
      · exact hother hv

/-- What a step in a macro leaves behind is fresh. -/
theorem MacroStep.fresh {ready : Bool} {m : QueueMacro α} {point : Point} {p : Pc α} {q q' : List α} {o o' : Option ℕ}
    (h : MacroStep P w ready m point q o p q' o') (hm : ∀ a, m = .get (some a) → point = .notify ∨ point = .unlock)
    {a : α} {point' : Point} (hp : p = .queue (.get (some a)) point') : point' = .notify ∨ point' = .unlock := by
  cases h with
  | lock hl =>
    obtain ⟨rfl, rfl⟩ := Pc.queue.inj hp
    rcases hl with rfl | rfl <;> rcases hm a rfl with h | h <;> cases h
  | pass | fail | sleep =>
    obtain ⟨rfl, rfl⟩ := Pc.queue.inj hp
    rcases hm a rfl with h | h <;> cases h
  | take | empty | put =>
    obtain ⟨-, rfl⟩ := Pc.queue.inj hp
    exact .inl rfl
  | unlock =>
    cases m with
    | get z =>
      cases z with
      | some b => cases hp
      | none =>
        unfold LockedState.after at hp
        dsimp only at hp
        split at hp <;> cases hp
    | write b =>
      unfold LockedState.after at hp
      dsimp only at hp
      split at hp <;> cases hp

/-- It goes to the body when the test has come out true. -/
theorem MacroStep.tested {ready : Bool} {m m' : QueueMacro α} {point : Point} {p : Pc α} {q q' : List α}
    {o o' : Option ℕ} (h : MacroStep P w ready m point q o p q' o') (hp : p = .queue m' .body) :
    ready = true ∧ m' = m ∧ q' = q := by
  cases h with
  | pass hr => exact ⟨hr, (Pc.queue.inj hp).1.symm, rfl⟩
  | lock | fail | sleep | take | empty | put => cases hp
  | unlock =>
    cases m with
    | get z =>
      cases z with
      | some b => cases hp
      | none =>
        unfold LockedState.after at hp
        dsimp only at hp
        split at hp <;> cases hp
    | write b =>
      unfold LockedState.after at hp
      dsimp only at hp
      split at hp <;> cases hp

/-- A step of worker `w`, from what it does to itself and to what others have tested. -/
theorem LockedState.Coherent.of_move (h : s.Coherent P) (hpc : ∀ u, u ≠ w → s'.pc u = s.pc u)
    (hready : ∀ u, u ≠ w → ∀ m, s.pc u = .queue m .body → s.ready P u m = true → s'.ready P u m = true)
    (hw : (s'.pc w).Coherent P.last w (s'.ready P w)) : s'.Coherent P := by
  intro u
  by_cases hu : u = w
  · rw [hu]
    exact hw
  · rw [hpc u hu]
    exact ⟨(h u).fits, (h u).fresh, fun m hm => hready u hu m hm ((h u).tested m hm)⟩

/-- **A step in a macro.** -/
theorem LockedState.Coherent.moved (h : s.Coherent P) {m : QueueMacro α} {point : Point} {p : Pc α} {q : List α}
    {o : Option ℕ} (hp : s.pc w = .queue m point)
    (hm : MacroStep P w (s.ready P w m) m point (s.queue (m.queueOf w)) (s.owner (m.queueOf w)) p q o) :
    (((s.setQueue (m.queueOf w) q).setOwner (m.queueOf w) o).goto w p).Coherent P := by
  have hw := h w
  rw [hp] at hw
  have hfits : p.Fits P.last w := by
    cases m with
    | get z => exact (hm.read_pc hw.fits.1 hw.fits.2).1
    | write a => exact (hm.write_pc hw.fits).1
  refine h.of_move (w := w) (fun u hu => LockedState.goto_pc_of_ne hu ..) (fun u hu m' hm' hr => ?_) ?_
  · have hu' := (h u).fits
    rw [hm'] at hu'
    exact hm.ready_mono hw.fits hu hu' hr
  · rw [LockedState.goto_pc_self]
    refine ⟨hfits, fun a point' he => hm.fresh (fun a ha => hw.fresh a point (ha ▸ rfl)) he, fun m' he => ?_⟩
    obtain ⟨hr, rfl, rfl⟩ := hm.tested he
    rw [LockedState.setQueue_self]
    cases m' <;> exact hr

/-- **A step of a worker.** -/
theorem LockedState.Coherent.step (h : s.Coherent P) (hlast : 0 < P.last) (hs : s.step P w = some s') :
    s'.Coherent P := by
  have hw := h w
  cases LockedState.step_cases hs with
  | made hp hm =>
    exact h.of_move (fun u hu => LockedState.goto_pc_of_ne hu ..) (fun u _ m _ hr => by cases m <;> exact hr)
      (by rw [LockedState.goto_pc_self]; exact .of_lock hlast (by simp) (by simp))
  | exhausted hp hm =>
    exact h.of_move (fun u hu => LockedState.goto_pc_of_ne hu ..) (fun u _ m _ hr => by cases m <;> exact hr)
      (by rw [LockedState.goto_pc_self]; exact .of_outside hlast (by simp))
  | failedToMake hp hm =>
    exact h.of_move (fun u hu => LockedState.goto_pc_of_ne hu ..) (fun u _ m _ hr => by cases m <;> exact hr)
      (by rw [LockedState.goto_pc_self]; exact .of_outside (Nat.zero_le _) (by simp))
  | failedToWork hp hm =>
    rw [hp] at hw
    exact h.of_move (fun u hu => LockedState.goto_pc_of_ne hu ..) (fun u _ m _ hr => by cases m <;> exact hr)
      (by rw [LockedState.goto_pc_self]; exact .of_outside hw.fits.2 (by simp))
  | worked hp hm =>
    rw [hp] at hw
    obtain ⟨h0, hle⟩ : 0 < w ∧ w ≤ P.last := hw.fits
    refine h.of_move (fun u hu => LockedState.goto_pc_of_ne hu ..) (fun u _ m _ hr => by cases m <;> exact hr) ?_
    rw [LockedState.goto_pc_self]
    split
    · exact .of_lock ⟨h0, hle⟩ (by simp) (by simp)
    · exact .of_lock (show w < P.last by omega) (by simp) (by simp)
  | moved hp hm => exact h.moved hp hm
  | @notified _ m hp =>
    rw [hp] at hw
    refine (h.notifyAll _).of_move (w := w) (fun u hu => LockedState.goto_pc_of_ne hu ..)
      (fun u _ m _ hr => by cases m <;> exact hr) ?_
    rw [LockedState.goto_pc_self]
    have hfits := hw.fits
    refine ⟨by cases m <;> exact hfits, fun a point he => .inr (Pc.queue.inj he).2.symm, fun m he => ?_⟩
    cases (Pc.queue.inj he).2
  | marked hp =>
    rw [hp] at hw
    refine h.of_move (fun u hu => LockedState.goto_pc_of_ne hu ..) (fun u _ m _ hr => ?_)
      (by rw [LockedState.goto_pc_self]; exact .of_outside hw.fits (by simp))
    cases m with
    | write a => exact hr
    | get z =>
      -- a flag that is set stays set
      have hdone : s.done ((QueueMacro.get z).queueOf u) = true →
          (s.setDone w).done ((QueueMacro.get z).queueOf u) = true := by
        intro hd
        by_cases hq : (QueueMacro.get z : QueueMacro α).queueOf u = w
        · rw [hq, LockedState.setDone_done_self]
        · rw [LockedState.setDone_done_of_ne hq, hd]
      simp only [LockedState.ready, Bool.or_eq_true] at hr ⊢
      exact hr.imp_right hdone
  | left hp =>
    exact (h.notifyAll _).of_move (w := w) (fun u hu => LockedState.goto_pc_of_ne hu ..)
      (fun u _ m _ hr => by cases m <;> exact hr)
      (by rw [LockedState.goto_pc_self]; exact .of_outside trivial (by simp))

/-! ## Who has the lock -/

/-- **Who is where one has the lock, has it.** -/
def LockedState.Exclusive (s : LockedState σ α) : Prop :=
  ∀ w m point, s.pc w = .queue m point → point.holds = true → s.owner (m.queueOf w) = some w

/-- A worker on its own takes no lock. -/
theorem LockedState.Exclusive.goto (h : s.Exclusive) {p : Pc α} (hp : ∀ m point, p = .queue m point → point = .lock) :
    (s.goto w p).Exclusive := by
  intro u m point hu hx
  by_cases hw : u = w
  · subst hw
    rw [LockedState.goto_pc_self] at hu
    rw [hp m point hu] at hx
    cases hx
  · rw [LockedState.goto_pc_of_ne hw] at hu
    exact h u m point hu hx

theorem LockedState.Exclusive.notifyAll (h : s.Exclusive) (x : ℕ) : (s.notifyAll x).Exclusive := by
  intro u m point hu hx
  rcases pc_notifyAll x u s with ⟨m', -, -, hw⟩ | ⟨-, hw⟩
  · rw [hw] at hu
    obtain ⟨-, rfl⟩ := Pc.queue.inj hu
    cases hx
  · exact h u m point (hw ▸ hu) hx

/-- A step in a macro keeps the lock where it has it, takes it when nobody has it, or gives it back. -/
theorem MacroStep.owner_cases {ready : Bool} {m : QueueMacro α} {point : Point} {p : Pc α} {q q' : List α}
    {o o' : Option ℕ} (h : MacroStep P w ready m point q o p q' o') :
    (o = none ∧ o' = some w) ∨ (point.holds = true ∧ o' = o) ∨
      (point.holds = true ∧ o' = none ∧ ∀ m point, p = .queue m point → point.holds = false) := by
  cases h with
  | lock => exact .inl ⟨rfl, rfl⟩
  | pass | fail | take | empty | put => exact .inr (.inl ⟨rfl, rfl⟩)
  | sleep => exact .inr (.inr ⟨rfl, rfl, fun m point hp => (Pc.queue.inj hp).2 ▸ rfl⟩)
  | unlock =>
    refine .inr (.inr ⟨rfl, rfl, fun m' point hp => ?_⟩)
    rcases m with (_ | a) | a <;> unfold LockedState.after at hp <;> dsimp only at hp
    · split at hp <;> cases hp
    · cases hp
    · split at hp
      · cases hp
      · exact (Pc.queue.inj hp).2 ▸ rfl

/-- It stays at its queue. -/
theorem MacroStep.queueOf_eq {ready : Bool} {m m' : QueueMacro α} {point point' : Point} {p : Pc α} {q q' : List α}
    {o o' : Option ℕ} (h : MacroStep P w ready m point q o p q' o') (hp : p = .queue m' point')
    (hx : point'.holds = true) : m'.queueOf w = m.queueOf w := by
  cases h with
  | lock | pass | fail | sleep | take | empty | put =>
    obtain ⟨rfl, -⟩ := Pc.queue.inj hp
    rfl
  | unlock =>
    rcases m with (_ | a) | a <;> unfold LockedState.after at hp <;> dsimp only at hp
    · split at hp <;> cases hp
    · cases hp
    · split at hp
      · cases hp
      · obtain ⟨-, rfl⟩ := Pc.queue.inj hp
        cases hx

/-- **A step of a worker.** -/
theorem LockedState.Exclusive.step (h : s.Exclusive) (hs : s.step P w = some s') : s'.Exclusive := by
  cases LockedState.step_cases hs with
  | made | exhausted | failedToMake | failedToWork | marked =>
    refine LockedState.Exclusive.goto (s := _) (fun u m point => h u m point) fun m point hp => ?_
    first
      | exact (Pc.queue.inj hp).2.symm
      | cases hp
  | worked =>
    refine LockedState.Exclusive.goto (s := _) (fun u m point => h u m point) fun m point hp => ?_
    split at hp <;> exact (Pc.queue.inj hp).2.symm
  | @notified _ m hp =>
    intro u m' point hu hx
    by_cases hw : u = w
    · subst hw
      rw [LockedState.goto_pc_self] at hu
      obtain ⟨rfl, rfl⟩ := Pc.queue.inj hu
      exact h u m .notify hp rfl
    · rw [LockedState.goto_pc_of_ne hw] at hu
      exact h.notifyAll _ u m' point hu hx
  | left hp => exact (h.notifyAll _).goto fun m point hp => by cases hp
  | @moved _ m point p q o hp hm =>
    intro u m' point' hu hx
    by_cases hw : u = w
    · subst hw
      rw [LockedState.goto_pc_self] at hu
      have hqueue := hm.queueOf_eq hu hx
      rw [hqueue, LockedState.goto_owner, LockedState.setOwner_owner_self]
      rcases hm.owner_cases with ⟨-, ho⟩ | ⟨hholds, ho⟩ | ⟨-, -, hno⟩
      · exact ho
      · rw [ho]
        exact h u m point hp hholds
      · rw [hno m' point' hu] at hx
        cases hx
    · rw [LockedState.goto_pc_of_ne hw] at hu
      have hown : s.owner (m'.queueOf u) = some u := h u m' point' hu hx
      by_cases hq : m'.queueOf u = m.queueOf w
      · -- the lock is another's, so worker `w` can neither take it nor have it
        exfalso
        rw [hq] at hown
        rcases hm.owner_cases with ⟨ho, -⟩ | ⟨hholds, -⟩ | ⟨hholds, -⟩
        · rw [ho] at hown
          cases hown
        · exact hw (Option.some.inj (hown.symm.trans (h w m point hp hholds)))
        · exact hw (Option.some.inj (hown.symm.trans (h w m point hp hholds)))
      · rw [LockedState.goto_owner, LockedState.setOwner_owner_of_ne hq]
        exact hown

/-- **Only who has the lock changes the queue.** -/
theorem LockedState.Exclusive.queue_step (h : s.Exclusive) (hs : s.step P w = some s') (hq : s'.queue v ≠ s.queue v) :
    s.owner v = some w := by
  cases LockedState.step_cases hs with
  | made | exhausted | worked | failedToMake | failedToWork | notified | marked | left => exact absurd rfl hq
  | @moved _ m point p q o hp hm =>
    by_cases hv : v = m.queueOf w
    · subst hv
      have hbody : point = .body := by
        by_contra hne
        apply hq
        rw [LockedState.goto_queue, LockedState.setOwner_queue, LockedState.setQueue_queue_self]
        generalize s.queue (m.queueOf w) = q₀ at hm
        generalize s.owner (m.queueOf w) = o₀ at hm
        cases hm with
        | take | empty | put => exact absurd rfl hne
        | lock | pass | fail | sleep | unlock => rfl
      exact h w m point hp (hbody ▸ rfl)
    · exact absurd (LockedState.setQueue_queue_of_ne hv ..) hq

end ChunkGrouping
