import ChunkGrouping.Lib.Runs
import ChunkGrouping.Proof.Pipeline
import ChunkGrouping.Proof.PipelineMoves

/-!
# The locks give atomic queues

In `Model/Pipeline` a push and a pop are one step; in `Model/PipelineLocks` they are what the macros
do with a lock and a condition variable. A step at the locks is one of the former, or none: the push
and the pop happen in the body of the macro, all other steps of a macro are invisible.

* `Pc.phase`: where a worker at the locks is for the atomic queues.
* `Abstracts.step`: a step at the locks, between two states and what they are for the queues.
* `locks_refine_queues`: every run at the locks, heard or not, is a run with atomic queues.
* `locks_exclude`: in none of them do two workers have one lock.
* `locks_eq_sequential`: what holds of atomic queues holds at the locks.
-/

namespace ChunkGrouping

open BoundedPipeline PipelineRun

variable {σ : ℕ → Type} {α : Type} {P : Program σ α} {s s' : LockedState σ α} {t t' : BoundedPipeline.State σ α}
  {v w x : ℕ}

/-! ## Where a worker is -/

/-- **Where a worker is for the atomic queues**: before the body of a macro it has yet to pop or to push. -/
def Pc.phase (last w : ℕ) : Pc α → Phase α
  | produce => .fetch
  | queue (.get (some a)) _ => .work a
  | queue (.get none) .notify | queue (.get none) .unlock => if w = last then .returned else .finish
  | queue (.get none) _ => .fetch
  | queue (.write _) .notify | queue (.write _) .unlock => .fetch
  | queue (.write a) _ => .push a
  | work a => .work a
  | setDone => .finish
  | notifyDone | returned | crashed => .returned

/-- The code of worker `w` fails on what it has. -/
def Fails (P : Program σ α) (w : ℕ) (t : BoundedPipeline.State σ α) : Prop :=
  (w = 0 ∧ t.phase 0 = .fetch ∧ P.produce (t.loc 0) = none) ∨ ∃ a, t.phase w = .work a ∧ P.work w (t.loc w) a = none

/-- **What a state at the locks is for the atomic queues.** A worker that has crashed is one whose code fails. -/
structure Abstracts (P : Program σ α) (s : LockedState σ α) (t : BoundedPipeline.State σ α) : Prop where
  loc : t.loc = s.loc
  queue : t.queue = s.queue
  done : t.done = s.done
  phase : ∀ w, s.pc w ≠ .crashed → t.phase w = (s.pc w).phase P.last w
  crashed : ∀ w, s.pc w = .crashed → Fails P w t

theorem Abstracts.phase_of (h : Abstracts P s t) {p : Pc α} (hp : s.pc w = p) (hne : p ≠ .crashed) :
    t.phase w = p.phase P.last w := by
  rw [h.phase w (hp ▸ hne), hp]

/-- A worker whose code fails does so whatever the others do. -/
theorem Fails.congr (h : Fails P w t) (hphase : t'.phase w = t.phase w) (hloc : t'.loc w = t.loc w) :
    Fails P w t' := by
  rcases h with ⟨rfl, hp, hm⟩ | ⟨a, hp, hm⟩
  · exact .inl ⟨rfl, hphase.trans hp, hloc ▸ hm⟩
  · exact .inr ⟨a, hphase.trans hp, hloc ▸ hm⟩

/-- A failing worker cannot step. -/
theorem Fails.step (h : Fails P w t) : BoundedPipeline.step P w t = none := by
  rcases h with ⟨rfl, hp, hm⟩ | ⟨a, hp, hm⟩
  · simp [BoundedPipeline.step, hp, hm]
  · simp [BoundedPipeline.step, hp, hm]

/-- **A move of worker `w`**, on both sides. -/
theorem Abstracts.of_move (h : Abstracts P s t) (hpc : ∀ u, u ≠ w → s'.pc u = s.pc u)
    (hphase : ∀ u, u ≠ w → t'.phase u = t.phase u) (hother : ∀ u, u ≠ w → t'.loc u = t.loc u)
    (hloc : t'.loc = s'.loc) (hqueue : t'.queue = s'.queue) (hdone : t'.done = s'.done) {p : Pc α}
    (hp : s'.pc w = p) (hne : p ≠ .crashed) (hw : t'.phase w = p.phase P.last w) : Abstracts P s' t' := by
  refine ⟨hloc, hqueue, hdone, fun u hu => ?_, fun u hu => ?_⟩
  · by_cases hu' : u = w
    · subst hu'
      rw [hw, hp]
    · rw [hphase u hu', hpc u hu']
      exact h.phase u (hpc u hu' ▸ hu)
  · by_cases hu' : u = w
    · subst hu'
      exact absurd (hp.symm.trans hu) hne
    · exact (h.crashed u (hpc u hu' ▸ hu)).congr (hphase u hu') (hother u hu')

/-- **A move that nobody sees.** -/
theorem Abstracts.of_stutter (h : Abstracts P s t) {p : Pc α} (hpc : s.pc w ≠ .crashed) (hne : p ≠ .crashed)
    (hp : p.phase P.last w = (s.pc w).phase P.last w) : Abstracts P (s.goto w p) t :=
  h.of_move (fun _ hu => LockedState.goto_pc_of_ne hu ..) (fun _ _ => rfl) (fun _ _ => rfl) h.loc h.queue h.done
    (LockedState.goto_pc_self ..) hne ((h.phase w hpc).trans hp.symm)

/-- Who has a lock does not count. -/
theorem Abstracts.setOwner (h : Abstracts P s t) (x : ℕ) (o : Option ℕ) : Abstracts P (s.setOwner x o) t :=
  ⟨h.loc, h.queue, h.done, h.phase, h.crashed⟩

/-- Nor does a notification. -/
theorem Abstracts.notifyAll (h : Abstracts P s t) (x : ℕ) : Abstracts P (s.notifyAll x) t := by
  refine ⟨h.loc, h.queue, h.done, fun u hu => ?_, fun u hu => ?_⟩
  · rcases pc_notifyAll x u s with ⟨m, -, hm, hw⟩ | ⟨-, hw⟩
    · rw [hw, h.phase_of hm (by simp)]
      rcases m with (_ | a) | a <;> rfl
    · rw [hw] at hu ⊢
      exact h.phase u hu
  · rcases pc_notifyAll x u s with ⟨m, -, hm, hw⟩ | ⟨-, hw⟩
    · rw [hw] at hu
      cases hu
    · exact h.crashed u (hw ▸ hu)

/-- **A crash.** -/
theorem Abstracts.crash (h : Abstracts P s t) (hf : Fails P w t) : Abstracts P (s.goto w .crashed) t := by
  refine ⟨h.loc, h.queue, h.done, fun u hu => ?_, fun u hu => ?_⟩
  · by_cases hu' : u = w
    · subst hu'
      exact absurd (LockedState.goto_pc_self ..) hu
    · rw [LockedState.goto_pc_of_ne hu'] at hu ⊢
      exact h.phase u hu
  · by_cases hu' : u = w
    · rwa [hu']
    · rw [LockedState.goto_pc_of_ne hu'] at hu
      exact h.crashed u hu

/-! ## A step at the locks -/

/-- Behind a macro a worker is where it was for the queues. -/
theorem phase_after (m : QueueMacro α) :
    (LockedState.after P w m).phase P.last w = (Pc.queue m .unlock : Pc α).phase P.last w := by
  rcases m with (_ | a) | a
  · unfold LockedState.after
    dsimp only
    by_cases hl : w = P.last <;> simp [Pc.phase, hl]
  · rfl
  · unfold LockedState.after
    dsimp only
    split <;> rfl

theorem after_ne_crashed (m : QueueMacro α) : LockedState.after P w m ≠ .crashed := by
  rcases m with (_ | a) | a <;> unfold LockedState.after <;> dsimp only
  · split <;> simp
  · simp
  · split <;> simp

/-- **A step in a macro** is the pop or the push, in its body, or nothing. -/
theorem Abstracts.moved (hc : s.Coherent P) (h : Abstracts P s t) {m : QueueMacro α} {point : Point} {p : Pc α}
    {q : List α} {o : Option ℕ} (hp : s.pc w = .queue m point)
    (hm : MacroStep P w (s.ready P w m) m point (s.queue (m.queueOf w)) (s.owner (m.queueOf w)) p q o) :
    Abstracts P (((s.setQueue (m.queueOf w) q).setOwner (m.queueOf w) o).goto w p) t ∨
      ∃ t', BoundedPipeline.step P w t = some t' ∧
        Abstracts P (((s.setQueue (m.queueOf w) q).setOwner (m.queueOf w) o).goto w p) t' := by
  have hw := hc w
  rw [hp] at hw
  have hne : s.pc w ≠ .crashed := by rw [hp]; simp
  -- all steps but the body's
  have hstutter : ∀ {p' : Pc α} {o' : Option ℕ}, p' ≠ .crashed →
      p'.phase P.last w = (Pc.queue m point : Pc α).phase P.last w →
      Abstracts P (((s.setQueue (m.queueOf w) (s.queue (m.queueOf w))).setOwner (m.queueOf w) o').goto w p') t := by
    intro p' o' hp' hphase
    rw [LockedState.setQueue_self]
    exact (h.setOwner _ o').of_stutter hne hp' (hphase.trans (congrArg _ hp.symm))
  generalize hq : s.queue (m.queueOf w) = q₀ at hm
  generalize ho : s.owner (m.queueOf w) = o₀ at hm
  cases hm with
  | lock hl =>
    subst hq
    refine .inl (hstutter (by simp) ?_)
    rcases m with (_ | a) | a <;> rcases hl with rfl | rfl <;> rfl
  | pass | fail | sleep =>
    subst hq
    refine .inl (hstutter (by simp) ?_)
    rcases m with (_ | a) | a <;> rfl
  | unlock =>
    subst hq
    exact .inl (hstutter (after_ne_crashed m) (phase_after m))
  | @take z a q =>
    obtain ⟨v, rfl⟩ : ∃ v, w = v + 1 := ⟨w - 1, by have := hw.fits.1; omega⟩
    obtain rfl : z = none := by
      cases z with
      | none => rfl
      | some b => rcases hw.fresh b .body rfl with hx | hx <;> cases hx
    have hphase : t.phase (v + 1) = .fetch := h.phase_of hp (by simp)
    have hqueue : t.queue v = a :: q := by rw [h.queue]; exact hq
    refine .inr ⟨(t.setQueue v q).goto (v + 1) (.work a), by simp [BoundedPipeline.step, hphase, hqueue], ?_⟩
    refine h.of_move (w := v + 1) (fun _ hu => LockedState.goto_pc_of_ne hu ..)
      (fun _ hu => State.goto_phase_of_ne hu ..) (fun _ _ => rfl) h.loc ?_ h.done (LockedState.goto_pc_self ..)
      (by simp) (State.goto_phase_self ..)
    show Function.update t.queue v q = Function.update s.queue v q
    rw [h.queue]
  | @empty z =>
    obtain ⟨v, rfl⟩ : ∃ v, w = v + 1 := ⟨w - 1, by have := hw.fits.1; omega⟩
    obtain rfl : z = none := by
      cases z with
      | none => rfl
      | some b => rcases hw.fresh b .body rfl with hx | hx <;> cases hx
    have hphase : t.phase (v + 1) = .fetch := h.phase_of hp (by simp)
    have hqueue : t.queue v = [] := by rw [h.queue]; exact hq
    have hdone : t.done v = true := by
      -- an empty queue passes the test only when it is done
      have hr := hw.tested (.get none) rfl
      rw [LockedState.ready_get, show s.queue v = [] from hq] at hr
      rw [h.done]
      simpa using hr
    refine .inr ⟨t.goto (v + 1) (if v + 1 = P.last then .returned else .finish),
      by simp [BoundedPipeline.step, hphase, hqueue, hdone], ?_⟩
    rw [← hq, LockedState.setQueue_self]
    exact h.of_move (w := v + 1) (fun _ hu => LockedState.goto_pc_of_ne hu ..)
      (fun _ hu => State.goto_phase_of_ne hu ..) (fun _ _ => rfl) h.loc h.queue h.done (LockedState.goto_pc_self ..)
      (by simp) (State.goto_phase_self ..)
  | @put a =>
    have hphase : t.phase w = .push a := h.phase_of hp (by simp)
    have hqueue : t.queue w = q₀ := by rw [h.queue]; exact hq
    have hroom : (t.queue w).length < P.cap := by
      have hr := hw.tested (.write a) rfl
      rw [LockedState.ready_write] at hr
      rw [h.queue]
      exact of_decide_eq_true hr
    refine .inr ⟨(t.setQueue w (t.queue w ++ [a])).goto w .fetch, by simp [BoundedPipeline.step, hphase, hroom], ?_⟩
    refine h.of_move (w := w) (fun _ hu => LockedState.goto_pc_of_ne hu ..)
      (fun _ hu => State.goto_phase_of_ne hu ..) (fun _ _ => rfl) h.loc ?_ h.done (LockedState.goto_pc_self ..)
      (by simp) (State.goto_phase_self ..)
    show Function.update t.queue w (t.queue w ++ [a]) = Function.update s.queue w (q₀ ++ [a])
    rw [hqueue, h.queue]

/-- **A step at the locks** is one of the same worker with atomic queues, or none. -/
theorem Abstracts.step (hc : s.Coherent P) (h : Abstracts P s t) (hs : s.step P w = some s') :
    Abstracts P s' t ∨ ∃ t', BoundedPipeline.step P w t = some t' ∧ Abstracts P s' t' := by
  cases LockedState.step_cases hs with
  | @made a l hp hm =>
    have hphase : t.phase 0 = .fetch := h.phase_of hp (by simp)
    have hmake : P.produce (t.loc 0) = some (some a, l) := by rw [h.loc]; exact hm
    refine .inr ⟨(t.setLoc 0 l).goto 0 (.push a), by simp [BoundedPipeline.step, hphase, hmake], ?_⟩
    refine h.of_move (w := 0) (fun _ hu => LockedState.goto_pc_of_ne hu ..)
      (fun _ hu => State.goto_phase_of_ne hu ..) (fun _ hu => State.setLoc_loc_of_ne hu ..) ?_ h.queue h.done
      (LockedState.goto_pc_self ..) (by simp) (State.goto_phase_self ..)
    show Function.update t.loc 0 l = Function.update s.loc 0 l
    rw [h.loc]
  | @exhausted l hp hm =>
    have hphase : t.phase 0 = .fetch := h.phase_of hp (by simp)
    have hmake : P.produce (t.loc 0) = some (none, l) := by rw [h.loc]; exact hm
    refine .inr ⟨(t.setLoc 0 l).goto 0 .finish, by simp [BoundedPipeline.step, hphase, hmake], ?_⟩
    refine h.of_move (w := 0) (fun _ hu => LockedState.goto_pc_of_ne hu ..)
      (fun _ hu => State.goto_phase_of_ne hu ..) (fun _ hu => State.setLoc_loc_of_ne hu ..) ?_ h.queue h.done
      (LockedState.goto_pc_self ..) (by simp) (State.goto_phase_self ..)
    show Function.update t.loc 0 l = Function.update s.loc 0 l
    rw [h.loc]
  | @worked _ a b l hp hm =>
    have hphase : t.phase w = .work a := h.phase_of hp (by simp)
    have hwork : P.work w (t.loc w) a = some (b, l) := by rw [h.loc]; exact hm
    refine .inr ⟨(t.setLoc w l).goto w (if w = P.last then .fetch else .push b),
      by simp [BoundedPipeline.step, hphase, hwork], ?_⟩
    refine h.of_move (w := w) (fun _ hu => LockedState.goto_pc_of_ne hu ..)
      (fun _ hu => State.goto_phase_of_ne hu ..) (fun _ hu => State.setLoc_loc_of_ne hu ..) ?_ h.queue h.done
      (LockedState.goto_pc_self ..) (by split <;> simp) ?_
    · show Function.update t.loc w l = Function.update s.loc w l
      rw [h.loc]
    · rw [State.goto_phase_self]
      split <;> rfl
  | failedToMake hp hm =>
    exact .inl (h.crash (.inl ⟨rfl, h.phase_of hp (by simp), by rw [h.loc]; exact hm⟩))
  | failedToWork hp hm =>
    exact .inl (h.crash (.inr ⟨_, h.phase_of hp (by simp), by rw [h.loc]; exact hm⟩))
  | moved hp hm => exact h.moved hc hp hm
  | @notified _ m hp =>
    have hkeep : (s.notifyAll (m.queueOf w)).pc w = .queue m .notify := by
      rw [pc_notifyAll_of_ne (by simp [hp]), hp]
    refine .inl ((h.notifyAll _).of_stutter (by rw [hkeep]; simp) (by simp) ?_)
    rw [hkeep]
    rcases m with (_ | a) | a <;> rfl
  | marked hp =>
    have hphase : t.phase w = .finish := h.phase_of hp (by simp)
    refine .inr ⟨{ t with done := Function.update t.done w true }.goto w .returned,
      by simp [BoundedPipeline.step, hphase], ?_⟩
    refine h.of_move (w := w) (fun _ hu => LockedState.goto_pc_of_ne hu ..)
      (fun _ hu => State.goto_phase_of_ne hu ..) (fun _ _ => rfl) h.loc h.queue ?_ (LockedState.goto_pc_self ..)
      (by simp) (State.goto_phase_self ..)
    show Function.update t.done w true = Function.update s.done w true
    rw [h.done]
  | left hp =>
    have hkeep : (s.notifyAll w).pc w = .notifyDone := by rw [pc_notifyAll_of_ne (by simp [hp]), hp]
    refine .inl ((h.notifyAll _).of_stutter (by rw [hkeep]; simp) (by simp) ?_)
    rw [hkeep]
    rfl

/-- **The workers start**, on both sides. -/
theorem abstracts_start (hloc : t.loc = s.loc) (hqueue : t.queue = s.queue) :
    Abstracts P (s.start P) (restart P t) := by
  have hpc : ∀ w, (s.start P).pc w ≠ .crashed := by
    intro w
    simp only [LockedState.start]
    split
    · simp
    · split <;> simp
  refine ⟨hloc, hqueue, rfl, fun w _ => ?_, fun w hw => absurd hw (hpc w)⟩
  simp only [LockedState.start, restart]
  by_cases h0 : w = 0
  · simp [h0, Pc.phase]
  · by_cases hle : w ≤ P.last
    · simp [h0, hle, Pc.phase]
    · simp [h0, hle, Pc.phase]

theorem LockedState.coherent_start (s : LockedState σ α) : (s.start P).Coherent P := by
  intro w
  simp only [LockedState.start]
  split
  · exact .of_outside (by assumption) (by simp)
  · split
    · exact .of_lock ⟨by omega, by assumption⟩ (by simp) (by simp)
    · exact .of_outside trivial (by simp)

theorem LockedState.exclusive_start (s : LockedState σ α) : (s.start P).Exclusive := by
  intro w m point hp hx
  simp only [LockedState.start] at hp
  split at hp
  · cases hp
  · split at hp
    · obtain ⟨-, rfl⟩ := Pc.queue.inj hp
      cases hx
    · cases hp

/-! ## Runs -/

namespace LockedRun

variable {κ ι φ : Type} [Chunker κ] [Index ι φ] [Inhabited φ] {feature : Chunk → φ} {r r' : LockedRun κ ι φ}
  {q q' : PipelineRun κ ι φ}

/-- **A run at the locks and what it is for the atomic queues.** -/
structure Implements (feature : Chunk → φ) (r : LockedRun κ ι φ) (q : PipelineRun κ ι φ) : Prop where
  coherent : r.pipe.Coherent (workers feature)
  exclusive : r.pipe.Exclusive
  abstracts : Abstracts (workers feature) r.pipe q.pipe
  files : q.files = r.files
  adding : r.adding = q.current.isSome

theorem implements_new (feature : Chunk → φ) (k : κ) (index : ι) (cacheSize : ℕ)
    (files : List (String × FileContent)) :
    Implements feature (.new k index cacheSize files) (.new k index cacheSize files) where
  coherent _ := .of_outside trivial (by simp [LockedRun.new])
  exclusive _ _ _ hp := by cases hp
  abstracts := ⟨rfl, rfl, rfl, fun _ _ => rfl, fun _ hw => by cases hw⟩
  files := rfl
  adding := rfl

/-- **A step** of `main` or of a worker. -/
theorem Implements.step {a : Actor} (h : Implements feature r q) (hs : LockedRun.step feature a r = some r') :
    Implements feature r' q ∨ ∃ q', PipelineRun.step feature a q = some q' ∧ Implements feature r' q' := by
  cases a with
  | worker w =>
    obtain ⟨pipe, hpipe, rfl⟩ := Option.map_eq_some_iff.1 hs
    have hcoherent := h.coherent.step (Nat.zero_lt_succ 3) hpipe
    have hexclusive := h.exclusive.step hpipe
    rcases h.abstracts.step h.coherent hpipe with habs | ⟨t, ht, habs⟩
    · exact .inl ⟨hcoherent, hexclusive, habs, h.files, h.adding⟩
    · exact .inr ⟨{ q with pipe := t }, Option.map_eq_some_iff.2 ⟨t, ht, rfl⟩,
        ⟨hcoherent, hexclusive, habs, h.files, h.adding⟩⟩
  | main =>
    rw [LockedRun.step] at hs
    split at hs
    · rename_i hadd
      split at hs
      · rename_i hall
        obtain rfl := Option.some.inj hs
        -- the workers that `main` joins have returned on both sides
        obtain ⟨fileMeta, hcur⟩ := Option.isSome_iff_exists.1 (h.adding ▸ hadd)
        have hret : ((List.range 5).all fun w => (q.pipe.phase w).isReturned) = true := by
          refine List.all_eq_true.2 fun w hw => Phase.isReturned_iff.2 ?_
          have hpc : r.pipe.pc w = .returned := by
            have hr := List.all_eq_true.1 hall w hw
            revert hr
            cases r.pipe.pc w <;> simp [Pc.isReturned]
          exact h.abstracts.phase_of hpc (by simp)
        refine .inr ⟨q.join fileMeta, by simp only [PipelineRun.step, hcur]; exact if_pos hret, ?_⟩
        exact ⟨h.coherent, h.exclusive, h.abstracts, h.files, rfl⟩
      · cases hs
    · rename_i hadd
      have hcur : q.current = none := by
        have hnone := h.adding
        rw [Bool.eq_false_iff.2 hadd] at hnone
        exact Option.isSome_eq_false_iff.1 hnone.symm |> Option.isNone_iff_eq_none.1
      cases hfiles : r.files with
      | nil => rw [hfiles] at hs; cases hs
      | cons file files =>
        obtain ⟨name, content⟩ := file
        rw [hfiles] at hs
        obtain rfl := Option.some.inj hs
        refine .inr ⟨q.start feature name content files, ?_, ?_⟩
        · simp only [PipelineRun.step, hcur, h.files, hfiles]
        · refine ⟨LockedState.coherent_start _, LockedState.exclusive_start _, ?_, rfl, rfl⟩
          refine abstracts_start ?_ h.abstracts.queue
          show Function.update q.pipe.loc 0 _ = Function.update r.pipe.loc 0 _
          rw [h.abstracts.loc]

/-- **Any schedule.** -/
theorem exec_implements (feature : Chunk → φ) (k : κ) (index : ι) (cacheSize : ℕ)
    (files : List (String × FileContent)) (schedule : List Actor)
    (hr : LockedRun.exec feature schedule (.new k index cacheSize files) = some r) :
    ∃ schedule' q, schedule'.Sublist schedule ∧
      PipelineRun.exec feature schedule' (.new k index cacheSize files) = some q ∧ Implements feature r q := by
  have hsim : Scheduled.Simulation (LockedRun.step feature) (PipelineRun.step feature)
      (Implements (κ := κ) (ι := ι) feature) := fun _ _ _ _ h hs => h.step hs
  exact hsim.exec schedule (implements_new feature k index cacheSize files) hr

end LockedRun

variable {κ ι φ : Type} [Chunker κ] [Index ι φ] [Inhabited φ]

/-- **The locks give atomic queues.** Every run at the locks, whoever is heard, is a run with atomic queues under
some of its steps: the workers' members, the queues and the flags are the same, a worker that has returned has
returned there, and one that has crashed is one whose code fails there. -/
theorem locks_refine_queues (feature : Chunk → φ) (k : κ) (index : ι) (cacheSize : ℕ)
    (files : List (String × FileContent)) (schedule : List Actor) (r : LockedRun κ ι φ)
    (hr : LockedRun.exec feature schedule (.new k index cacheSize files) = some r) :
    ∃ schedule' q, schedule'.Sublist schedule ∧
      PipelineRun.exec feature schedule' (.new k index cacheSize files) = some q ∧
      q.files = r.files ∧ q.current.isSome = r.adding ∧
      q.pipe.loc = r.pipe.loc ∧ q.pipe.queue = r.pipe.queue ∧ q.pipe.done = r.pipe.done ∧
      (∀ w, r.pipe.pc w ≠ .crashed → q.pipe.phase w = (r.pipe.pc w).phase 4 w) ∧
      ∀ w, r.pipe.pc w = .crashed → Fails (workers feature) w q.pipe := by
  obtain ⟨schedule', q, hsub, hexec, h⟩ := LockedRun.exec_implements feature k index cacheSize files schedule hr
  exact ⟨schedule', q, hsub, hexec, h.files, h.adding.symm, h.abstracts.loc, h.abstracts.queue, h.abstracts.done,
    h.abstracts.phase, h.abstracts.crashed⟩

/-- Worker 1 was blocked, worker 0 has pushed a chunk and notified: worker 1 waits for the lock worker 0 still has. -/
theorem locks_refine_queues_waiting : ∃ (r : LockedRun FastCDC BestFitIndex (Feature ℚ)) (schedule' : List Actor)
    (q : PipelineRun FastCDC BestFitIndex (Feature ℚ)),
    LockedRun.exec OdessSubfeatures.call (.main :: [1, 1, 1, 0, 0, 0, 0, 0].map .worker)
      (.new (FastCDC.new 1 1 0) (BestFitIndex.new (.byInsertion _) 12) 1 [("a", some [7])]) = some r ∧
    r.pipe.pc 1 = .queue (.get none) .wake ∧ r.pipe.owner 0 = some 0 ∧
    LockedRun.step OdessSubfeatures.call (.worker 1) r = none ∧
    PipelineRun.exec OdessSubfeatures.call schedule'
      (.new (FastCDC.new 1 1 0) (BestFitIndex.new (.byInsertion _) 12) 1 [("a", some [7])]) = some q ∧
    q.pipe.phase 0 = .fetch ∧ q.pipe.phase 1 = .fetch ∧ (q.pipe.queue 0).map Context.chunk = [⟨[7], 0⟩] := by
  have hrun : (LockedRun.exec (OdessSubfeatures.call : Chunk → Feature ℚ) (.main :: [1, 1, 1, 0, 0, 0, 0, 0].map .worker)
      (.new (FastCDC.new 1 1 0) (BestFitIndex.new (.byInsertion _) 12) 1 [("a", some [7])])).any (fun r =>
        r.pipe.pc 1 = .queue (.get none) .wake ∧ r.pipe.owner 0 = some 0 ∧
          (LockedRun.step OdessSubfeatures.call (.worker 1) r).isNone ∧ (r.pipe.pc 0).phase 4 0 = .fetch ∧
          (r.pipe.queue 0).map Context.chunk = [⟨[7], 0⟩]) = true := by decide +kernel
  obtain ⟨r, hr, he⟩ := (Option.any_eq_true _ _).1 hrun
  obtain ⟨hwake, hown, hwaits, hfetch, hchunks⟩ := of_decide_eq_true he
  rw [Option.isNone_iff_eq_none] at hwaits
  obtain ⟨schedule', q, -, hexec, -, -, -, hqueue, -, hphase, -⟩ := locks_refine_queues OdessSubfeatures.call _ _ _ _ _ r hr
  refine ⟨r, schedule', q, hr, hwake, hown, hwaits, hexec, ?_, ?_, by rw [hqueue, hchunks]⟩
  · rw [hphase 0 fun hcrashed => ?_, hfetch]
    rw [hcrashed] at hfetch
    cases hfetch
  · rw [hphase 1 (by simp [hwake]), hwake]
    rfl

/-- **The locks exclude.** In every run, whoever is heard, two workers that are where one has the lock of a queue
are one worker, and a step that changes a queue is one of the worker that has its lock. -/
theorem locks_exclude (feature : Chunk → φ) (k : κ) (index : ι) (cacheSize : ℕ) (files : List (String × FileContent))
    (schedule : List Actor) (r : LockedRun κ ι φ)
    (hr : LockedRun.exec feature schedule (.new k index cacheSize files) = some r) :
    (∀ u w m m' point point', r.pipe.pc u = .queue m point → r.pipe.pc w = .queue m' point' → point.holds = true →
      point'.holds = true → m.queueOf u = m'.queueOf w → u = w) ∧
    ∀ w v r', LockedRun.step feature (.worker w) r = some r' → r'.pipe.queue v ≠ r.pipe.queue v →
      r.pipe.owner v = some w := by
  obtain ⟨-, q, -, -, h⟩ := LockedRun.exec_implements feature k index cacheSize files schedule hr
  refine ⟨fun u w m m' point point' hu hw hx hx' hq => ?_, fun w v r' hs hne => ?_⟩
  · have hown := h.exclusive u m point hu hx
    rw [hq, h.exclusive w m' point' hw hx'] at hown
    exact (Option.some.inj hown).symm
  · obtain ⟨pipe, hpipe, rfl⟩ := Option.map_eq_some_iff.1 hs
    exact h.exclusive.queue_step hpipe hne

/-- Worker 0 is about to push a chunk, and worker 1 waits for the lock: nobody else is where one has it, and the push
is a step of the one that has it. -/
theorem locks_exclude_push : ∃ r r' : LockedRun FastCDC BestFitIndex (Feature ℚ),
    LockedRun.exec OdessSubfeatures.call (.main :: [0, 0, 0].map .worker)
      (.new (FastCDC.new 1 1 0) (BestFitIndex.new (.byInsertion _) 12) 1 [("a", some [7])]) = some r ∧
    r.pipe.pc 1 = .queue (.get none) .lock ∧ LockedRun.step OdessSubfeatures.call (.worker 1) r = none ∧
    (∀ w m point, r.pipe.pc w = .queue m point → point.holds = true → m.queueOf w = 0 → w = 0) ∧
    LockedRun.step OdessSubfeatures.call (.worker 0) r = some r' ∧ r'.pipe.queue 0 ≠ r.pipe.queue 0 ∧
    r.pipe.owner 0 = some 0 := by
  have hrun : (LockedRun.exec (OdessSubfeatures.call : Chunk → Feature ℚ) (.main :: [0, 0, 0].map .worker)
      (.new (FastCDC.new 1 1 0) (BestFitIndex.new (.byInsertion _) 12) 1 [("a", some [7])])).any (fun r =>
        r.pipe.pc 0 = .queue (.write (.new ⟨[7], 0⟩)) .body ∧ r.pipe.pc 1 = .queue (.get none) .lock ∧
          (LockedRun.step OdessSubfeatures.call (.worker 1) r).isNone ∧ (r.pipe.queue 0).length = 0 ∧
          (LockedRun.step OdessSubfeatures.call (.worker 0) r).map (fun r' => (r'.pipe.queue 0).length) = some 1) =
      true := by decide +kernel
  obtain ⟨r, hr, he⟩ := (Option.any_eq_true _ _).1 hrun
  obtain ⟨hbody, hlock, hwaits, hempty, hpush⟩ := of_decide_eq_true he
  rw [Option.isNone_iff_eq_none] at hwaits
  obtain ⟨r', hs, hone⟩ := Option.map_eq_some_iff.1 hpush
  obtain ⟨honly, howner⟩ := locks_exclude OdessSubfeatures.call _ _ _ _ _ r hr
  have hne : r'.pipe.queue 0 ≠ r.pipe.queue 0 := by
    intro hsame
    rw [hsame, hempty] at hone
    cases hone
  refine ⟨r, r', hr, hlock, hwaits, fun w m point hw hx hq => ?_, hs, hne, howner 0 0 r' hs hne⟩
  exact (honly 0 w (.write (.new ⟨[7], 0⟩)) m .body point hbody hw rfl hx hq.symm).symm

/-- **The pipeline at its locks is its sequential composition.** In any state a run at the locks leads to, heard or
not, no queue has more than 128 entries and the context in the write worker's hands has a type it knows. When the
workers have returned, the queues are empty; the chunker has drained the files added so far, its chunks are
numbered on from 0 and each of them has been stored once, in order; and the members are those of taking chunk
after chunk through dedup, feature, match and write. -/
theorem locks_eq_sequential [LawfulChunker κ] (feature : Chunk → φ) {k₀ : κ} (hk₀ : Chunker.nextChunkId k₀ = 0)
    (index : ι) (cacheSize : ℕ) (files : List (String × FileContent)) (schedule : List Actor) (r : LockedRun κ ι φ)
    (hr : LockedRun.exec feature schedule (.new k₀ index cacheSize files) = some r) :
    (∀ w, w < 4 → (r.pipe.queue w).length ≤ 128) ∧
      (∀ x, r.pipe.pc 4 = .work x →
        x.chunkType = BaseChunk ∨ x.chunkType = DeltaChunk ∨ x.chunkType = DuplicateChunk) ∧
      ((∀ w, w ≤ 4 → r.pipe.pc w = .returned) → (∀ w, w < 4 → r.pipe.queue w = []) ∧
        ∃ done css m, files = done ++ r.files ∧ DrainsFiles (done.map Prod.snd) k₀ css (r.pipe.loc 0) ∧
          css.flatten.map Chunk.id = idsFrom 0 css.flatten.length ∧
          processChunks feature css.flatten ⟨{}, index, { storage := .new cacheSize }⟩ = some m ∧
          membersOf r.pipe.loc = m ∧ m.writer.calls.filterMap StoreOp.chunkWritten = css.flatten) := by
  obtain ⟨schedule', q, -, hexec, h⟩ := LockedRun.exec_implements feature k₀ index cacheSize files schedule hr
  have hok := exec_ok rfl schedule' (runOK_new feature hk₀ index cacheSize files) hexec
  refine ⟨fun w hw => ?_, fun x hx => ?_, fun hall => ?_⟩
  · rw [← h.abstracts.queue]
    cases hok with
    | idle hcur hfiles hadded hall hq => simp [hq w hw]
    | adding hfiles hadded hl hcur hi => exact hi.cap w hw
  · have hphase : q.pipe.phase 4 = .work x := h.abstracts.phase_of hx (by simp)
    cases hok with
    | idle hcur hfiles hadded hall hq => simp [hall 4] at hphase
    | adding hfiles hadded hl hcur hi =>
      exact hi.work_of (u := 2) (fun _ _ _ _ h => (chunkMatchWork_ok (ι := ι) h).2) hphase
  · have hret : q.pipe.AllReturned := by
      intro w
      by_cases hw : w ≤ 4
      · exact h.abstracts.phase_of (hall w hw) (by simp)
      · cases hok with
        | idle hcur hfiles hadded hall hq => exact hall w
        | adding hfiles hadded hl hcur hi => exact hi.idle w (by simpa [workers] using hw)
    obtain ⟨hq, done, css, metas, hfiles, hadded, -⟩ := hok.of_returned rfl hret
    rw [h.abstracts.queue] at hq
    rw [h.files] at hfiles
    rw [h.abstracts.loc] at hadded
    exact ⟨hq, done, css, _, hfiles, hadded.drained, hadded.ids, hadded.processed, rfl,
      (processChunks_ok hadded.processed).2⟩

/-- A schedule for a file of three chunks. All workers but the first block before there is anything to take, and then
all are at work. -/
def LockedRun.interleaved : List Actor :=
  .main :: ([(4, 3), (3, 3), (2, 3), (1, 3), (0, 12), (1, 12), (0, 1), (2, 12), (1, 5), (0, 8), (3, 12), (2, 2), (1, 12),
    (4, 9), (3, 2), (1, 11), (2, 12), (3, 12), (2, 5), (4, 9), (3, 2), (2, 12), (3, 12), (4, 9), (3, 6), (4, 5)].flatMap
    fun x => List.replicate x.2 (.worker x.1))

/-- A schedule for a file of `n` chunks: one worker after the other. -/
def LockedRun.inTurn (n : ℕ) : List Actor :=
  .main :: ([(0, 6 * n + 3), (1, 11 * n + 7), (2, 11 * n + 7), (3, 11 * n + 7), (4, 6 * n + 5)].flatMap
    fun x => List.replicate x.2 (.worker x.1)) ++ [.main]

/-- A file of a base, a delta and a duplicate. -/
theorem locks_eq_sequential_three : ∃ r : LockedRun FastCDC BestFitIndex (Feature ℚ),
    LockedRun.exec OdessSubfeatures.call LockedRun.interleaved
        (.new (FastCDC.new 1 1 0) (BestFitIndex.new (.byInsertion _) 12) 1 [("a", some [7, 8, 8])]) = some r ∧
      (∀ w, w ≤ 4 → r.pipe.pc w = .returned) ∧ (∀ w, w < 4 → r.pipe.queue w = []) ∧
      (membersOf r.pipe.loc).writer.calls = [.writeBase ⟨[7], 0⟩, .encode ⟨[8], 1⟩ 0, .writeDelta ⟨[8], 1⟩ 0,
        .writeDuplicate ⟨[8], 2⟩ 1] ∧
      processChunks (OdessSubfeatures.call : Chunk → Feature ℚ) [⟨[7], 0⟩, ⟨[8], 1⟩, ⟨[8], 2⟩]
        ⟨{}, BestFitIndex.new (.byInsertion _) 12, { storage := .new 1 }⟩ = some (membersOf r.pipe.loc) := by
  have hrun : ((LockedRun.exec (OdessSubfeatures.call : Chunk → Feature ℚ) LockedRun.interleaved
      (.new (FastCDC.new 1 1 0) (BestFitIndex.new (.byInsertion _) 12) 1 [("a", some [7, 8, 8])])).map
        fun r => ((List.range 5).map r.pipe.pc, (membersOf r.pipe.loc).writer.calls)) =
      some (List.replicate 5 .returned, [.writeBase ⟨[7], 0⟩, .encode ⟨[8], 1⟩ 0, .writeDelta ⟨[8], 1⟩ 0,
        .writeDuplicate ⟨[8], 2⟩ 1]) := by decide +kernel
  obtain ⟨r, hr, he⟩ := Option.map_eq_some_iff.1 hrun
  obtain ⟨he, hcalls⟩ := Prod.mk.inj he
  have hret : ∀ w, w ≤ 4 → r.pipe.pc w = .returned := by
    intro w hw
    have hmem : r.pipe.pc w ∈ (List.range 5).map r.pipe.pc :=
      List.mem_map_of_mem (List.mem_range.2 (Nat.lt_succ_of_le hw))
    rw [he] at hmem
    exact List.eq_of_mem_replicate hmem
  obtain ⟨hq, done, css, m, -, -, -, hm, rfl, hchunks⟩ :=
    (locks_eq_sequential OdessSubfeatures.call rfl _ _ _ _ r hr).2.2 hret
  rw [hcalls] at hchunks
  rw [← hchunks] at hm
  exact ⟨r, hr, hret, hq, hcalls, hm⟩

end ChunkGrouping
