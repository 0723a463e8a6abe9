import ChunkGrouping.Proof.PipelineBound

/-!
# Every order of the queues comes about

The converse of `Proof/PipelineRefine`: what the workers can do with atomic queues they can do at
the locks. A worker goes through a macro while the others stand between two macros: nobody has a
lock then, nobody is blocked, and the predicate is true.

* `atHome`: the state at the locks where every worker is between two macros.
* `Runs.macroSteps`: a whole macro; `Runs.worker_atHome`: a step with atomic queues.
* `queues_realised_at_locks`: every run.
-/

namespace ChunkGrouping

open BoundedPipeline PipelineRun

variable {σ : ℕ → Type} {α : Type} {P : Program σ α}

/-! ## Between two macros -/

/-- Where worker `w` is between two macros. -/
def Pc.home (w : ℕ) : Phase α → Pc α
  | .fetch => if w = 0 then produce else queue (.get none) .lock
  | .work a => work a
  | .push a => queue (.write a) .lock
  | .finish => setDone
  | .returned => returned

theorem Pc.home_ne_blocked (w : ℕ) (p : Phase α) (m : QueueMacro α) : Pc.home w p ≠ .queue m .blocked := by
  cases p <;> simp only [Pc.home] <;> first | split <;> simp | simp

theorem Pc.home_ne_sleep (w : ℕ) (p : Phase α) (m : QueueMacro α) : Pc.home w p ≠ .queue m .sleep := by
  cases p <;> simp only [Pc.home] <;> first | split <;> simp | simp

theorem Pc.isReturned_home (w : ℕ) (p : Phase α) : (Pc.home w p).isReturned = p.isReturned := by
  cases p <;> simp only [Pc.home] <;> first | split <;> rfl | rfl

/-- **Every worker is between two macros.** -/
def atHome (t : State σ α) : LockedState σ α where
  loc := t.loc
  pc w := .home w (t.phase w)
  queue := t.queue
  done := t.done
  owner _ := none

theorem atHome_goto (t : State σ α) (w : ℕ) (p : Phase α) : (atHome t).goto w (.home w p) = atHome (t.goto w p) := by
  have hpc : ((atHome t).goto w (.home w p)).pc = (atHome (t.goto w p)).pc := by
    funext u
    by_cases hu : u = w
    · subst hu
      simp [atHome]
    · simp [atHome, hu, State.goto_phase_of_ne hu]
  exact congrArg (fun pc => { atHome t with pc }) hpc

/-- Behind a macro a worker is where its phase is. -/
theorem home_after_get (v : ℕ) : LockedState.after P (v + 1) (.get none) =
    .home (v + 1) (if v + 1 = P.last then .returned else .finish) := by
  simp only [LockedState.after]
  split <;> rfl

theorem home_after_work (h : 0 < P.last) (w : ℕ) (a : α) :
    (if w = P.last then .queue (.get none) .lock else .queue (.write a) .lock) =
      Pc.home w (if w = P.last then .fetch else .push a) := by
  split
  · exact (if_neg (by omega)).symm
  · rfl

/-- The workers of a file start between two macros. -/
theorem start_atHome (t : State σ α) : (atHome t).start P = atHome (restart P t) := by
  refine congrArg (fun pc => { atHome t with pc, done := fun _ => false }) (funext fun w => ?_)
  by_cases h0 : w = 0
  · simp [h0, restart, Pc.home]
  · by_cases hle : w ≤ P.last <;> simp [h0, hle, restart, Pc.home]

/-! ## A macro -/

theorem step_queue {s : LockedState σ α} {w : ℕ} {m : QueueMacro α} {point : Point} (hp : s.pc w = .queue m point) :
    s.step P w = s.stepMacro P w m point := by
  unfold LockedState.step
  rw [hp]

section Run

variable {κ ι φ : Type} [Chunker κ] [Index ι φ] [Inhabited φ] {feature : Chunk → φ}
  {r₀ r : LockedRun κ ι φ} {s s' : LockedState (WorkerState κ ι) (Context φ)} {w : ℕ}

namespace LockedRun

/-- A step of a worker that is not about to notify in `task_done` is heard. -/
theorem Runs.worker (w : ℕ) (h : Runs feature NotifyHeard r₀ { r with pipe := s }) (hp : s.pc w ≠ .notifyDone)
    (hs : s.step (workers feature) w = some s') : Runs feature NotifyHeard r₀ { r with pipe := s' } := by
  refine .step (a := .worker w) h (fun v hv hn => ?_) (Option.map_eq_some_iff.2 ⟨s', hs, rfl⟩)
  obtain rfl := Actor.worker.inj hv
  exact absurd hn hp

/-- **A whole macro**, when its lock is free, its predicate true and nobody blocked: the queue is changed, and the
worker is behind the macro. -/
theorem Runs.macroSteps {m n : QueueMacro (Context φ)} {q : List (Context φ)}
    (h : Runs feature NotifyHeard r₀ { r with pipe := s }) (hp : s.pc w = .queue m .lock)
    (ho : s.owner (m.queueOf w) = none) (hready : s.ready (workers feature) w m = true)
    (hquiet : ∀ u m', s.pc u ≠ .queue m' .blocked) (hm : n.queueOf w = m.queueOf w)
    (hbody : ∀ s₁ : LockedState (WorkerState κ ι) (Context φ), s₁.queue = s.queue →
      s₁.stepMacro (workers feature) w m .body = some ((s₁.setQueue (m.queueOf w) q).goto w (.queue n .notify))) :
    Runs feature NotifyHeard r₀
      { r with
        pipe := (s.setQueue (m.queueOf w) q).goto w (LockedState.after (workers (κ := κ) (ι := ι) feature) w n) } := by
  set v := m.queueOf w with hv
  set s₁ := (s.setOwner v (some w)).goto w (.queue m .test) with hs₁
  have h₁ : Runs feature NotifyHeard r₀ { r with pipe := s₁ } :=
    h.worker w (by simp [hp]) (by rw [step_queue hp]; exact if_pos ho)
  set s₂ := s₁.goto w (.queue m .body) with hs₂
  have h₂ : Runs feature NotifyHeard r₀ { r with pipe := s₂ } := by
    have hr : s₁.ready (workers feature) w m = true := hready
    have hp₁ : s₁.pc w = .queue m .test := LockedState.goto_pc_self ..
    exact h₁.worker w (by simp [hp₁]) (by simp [step_queue hp₁, LockedState.stepMacro, hr, hs₂])
  set s₃ := (s₂.setQueue v q).goto w (.queue n .notify) with hs₃
  have h₃ : Runs feature NotifyHeard r₀ { r with pipe := s₃ } :=
    h₂.worker w (by simp [hs₂]) (by rw [step_queue (LockedState.goto_pc_self ..)]; exact hbody s₂ rfl)
  -- nobody is there to be woken
  have hwake : s₃.notifyAll v = s₃ := by
    refine congrArg (fun pc => { s₃ with pc }) (funext fun u => pc_notifyAll_of_ne (x := v) fun m₁ => ?_)
    by_cases hu : u = w
    · subst hu
      simp [hs₃]
    · simpa [hs₃, hs₂, hs₁, hu] using hquiet u m₁
  set s₄ := s₃.goto w (.queue n .unlock) with hs₄
  have h₄ : Runs feature NotifyHeard r₀ { r with pipe := s₄ } :=
    h₃.worker w (by simp [hs₃]) (by
      rw [step_queue (LockedState.goto_pc_self ..)]
      simp only [LockedState.stepMacro, hm, ← hs₃, hwake, hs₄])
  have h₅ := h₄.worker w (by simp [hs₄])
    (show _ = some ((s₄.setOwner v none).goto w (LockedState.after (workers (κ := κ) (ι := ι) feature) w n)) by
      rw [step_queue (LockedState.goto_pc_self ..)]
      simp only [LockedState.stepMacro, hm, ← hs₄])
  have hend : (s₄.setOwner v none).goto w (LockedState.after (workers (κ := κ) (ι := ι) feature) w n) =
      (s.setQueue v q).goto w (LockedState.after (workers (κ := κ) (ι := ι) feature) w n) := by
    have howner : Function.update (Function.update s.owner v (some w)) v none = s.owner := by
      rw [Function.update_idem, ← ho, Function.update_eq_self]
    simp only [hs₄, hs₃, hs₂, hs₁, LockedState.goto, LockedState.setOwner, LockedState.setQueue,
      Function.update_idem, howner]
  rwa [hend] at h₅

section AtHome

variable {t t' : State (WorkerState κ ι) (Context φ)} (h : Runs feature NotifyHeard r₀ { r with pipe := atHome t })

include h

/-- Worker `v + 1` gets a context, or finds that there will be none. -/
theorem Runs.fetch_atHome {v : ℕ} (hp : t.phase (v + 1) = .fetch)
    (hs : BoundedPipeline.step (workers feature) (v + 1) t = some t') :
    Runs feature NotifyHeard r₀ { r with pipe := atHome t' } := by
  have hquiet : ∀ u m, (atHome t).pc u ≠ .queue m .blocked := fun u m => Pc.home_ne_blocked u _ m
  have hlock : (atHome t).pc (v + 1) = .queue (.get none) .lock := congrArg (Pc.home (v + 1)) hp
  simp only [BoundedPipeline.step, hp] at hs
  cases hq : t.queue v with
  | cons a q =>
    rw [hq] at hs
    rw [← Option.some.inj hs, ← atHome_goto]
    refine h.macroSteps (m := .get none) (n := .get (some a)) (q := q) hlock rfl ?_ hquiet rfl fun s₁ hs₁ => ?_
    · simp [LockedState.ready, atHome, hq]
    · have hq₁ : s₁.queue v = a :: q := by rw [hs₁]; exact hq
      simp [LockedState.stepMacro, hq₁]
  | nil =>
    rw [hq] at hs
    dsimp only at hs
    split at hs
    · rename_i hdone
      have hself : atHome t = (atHome t).setQueue v [] := by
        rw [← hq]
        exact ((atHome t).setQueue_self v).symm
      rw [← Option.some.inj hs, ← atHome_goto, hself, ← home_after_get]
      refine h.macroSteps (m := .get none) (n := .get none) (q := []) hlock rfl ?_ hquiet rfl fun s₁ hs₁ => ?_
      · simp [LockedState.ready, atHome, hdone]
      · have hq₁ : s₁.queue v = [] := by rw [hs₁]; exact hq
        rw [QueueMacro.queueOf_get, ← hq₁, LockedState.setQueue_self]
        simp [LockedState.stepMacro, hq₁]
    · cases hs

/-- Worker `w` is done: the others are between two macros, so the notification is heard, and nobody is there to be
woken. -/
theorem Runs.finish_atHome (hp : t.phase w = .finish) :
    Runs feature NotifyHeard r₀
      { r with pipe := atHome ({ t with done := Function.update t.done w true }.goto w .returned) } := by
  have hpc : (atHome t).pc w = .setDone := congrArg (Pc.home w) hp
  set s₁ := ((atHome t).setDone w).goto w .notifyDone with hs₁
  have h₁ : Runs feature NotifyHeard r₀ { r with pipe := s₁ } :=
    h.worker w (by rw [hpc]; simp) (by simp only [LockedState.step, hpc, hs₁])
  have hp₁ : s₁.pc w = .notifyDone := LockedState.goto_pc_self ..
  have hother : ∀ u, u ≠ w → s₁.pc u = .home u (t.phase u) := fun u hu => LockedState.goto_pc_of_ne hu ..
  have hwake : s₁.notifyAll w = s₁ := by
    refine congrArg (fun pc => { s₁ with pc }) (funext fun u => pc_notifyAll_of_ne (x := w) fun m => ?_)
    by_cases hu : u = w
    · subst hu
      simp [hp₁]
    · rw [hother u hu]
      exact Pc.home_ne_blocked u _ m
  have hend : s₁.goto w .returned = atHome ({ t with done := Function.update t.done w true }.goto w .returned) := by
    rw [← atHome_goto]
    simp only [hs₁, LockedState.goto, Function.update_idem]
    rfl
  rw [← hend]
  refine .step (a := .worker w) h₁ (fun v hv _ context => ?_) (Option.map_eq_some_iff.2 ⟨_, ?_, rfl⟩)
  · obtain rfl := Actor.worker.inj hv
    rw [hother _ (Nat.succ_ne_self _)]
    exact Pc.home_ne_sleep _ _ _
  · simp only [LockedState.step, hp₁, hwake]

/-- **A step with atomic queues**, of a worker that goes through its macro while the others are between two. -/
theorem Runs.worker_atHome (hs : BoundedPipeline.step (workers feature) w t = some t') :
    Runs feature NotifyHeard r₀ { r with pipe := atHome t' } := by
  have hhome : ∀ {p}, t.phase w = p → (atHome t).pc w = .home w p := fun hp => congrArg (Pc.home w) hp
  cases hp : t.phase w with
  | fetch =>
    cases w with
    | zero =>
      have hpc := hhome hp
      simp only [BoundedPipeline.step, hp, Option.bind_eq_bind, Option.bind_eq_some_iff] at hs
      obtain ⟨⟨a, l⟩, hm, hs⟩ := hs
      have hm' : (workers (ι := ι) feature).produce ((atHome t).loc 0) = some (a, l) := hm
      cases a with
      | some a =>
        rw [← Option.some.inj hs, ← atHome_goto]
        exact h.worker 0 (by rw [hpc]; simp [Pc.home]) (by simp only [LockedState.step, hpc, Pc.home, if_true, hm']; rfl)
      | none =>
        rw [← Option.some.inj hs, ← atHome_goto]
        exact h.worker 0 (by rw [hpc]; simp [Pc.home]) (by simp only [LockedState.step, hpc, Pc.home, if_true, hm']; rfl)
    | succ v => exact h.fetch_atHome hp hs
  | work a =>
    have hpc := hhome hp
    simp only [BoundedPipeline.step, hp, Option.bind_eq_bind, Option.bind_eq_some_iff, Option.some.injEq] at hs
    obtain ⟨⟨b, l⟩, hm, rfl⟩ := hs
    have hm' : (workers (ι := ι) feature).work w ((atHome t).loc w) a = some (b, l) := hm
    rw [← atHome_goto]
    refine h.worker w (by rw [hpc]; simp [Pc.home]) ?_
    simp only [LockedState.step, hpc, Pc.home, hm']
    rw [home_after_work (P := workers (κ := κ) (ι := ι) feature) (Nat.zero_lt_succ 3)]
    rfl
  | push a =>
    have hpc := hhome hp
    simp only [BoundedPipeline.step, hp] at hs
    split at hs
    · rename_i hroom
      rw [← Option.some.inj hs, ← atHome_goto]
      refine h.macroSteps (m := .write a) (n := .write a) (q := t.queue w ++ [a]) hpc rfl ?_
        (fun u m => Pc.home_ne_blocked u _ m) rfl fun s₁ hs₁ => ?_
      · exact decide_eq_true hroom
      · have hq₁ : s₁.queue w = t.queue w := by rw [hs₁]; rfl
        simp [LockedState.stepMacro, hq₁]
    · cases hs
  | finish =>
    simp only [BoundedPipeline.step, hp] at hs
    rw [← Option.some.inj hs]
    exact h.finish_atHome hp
  | returned =>
    rw [step_returned hp] at hs
    cases hs

end AtHome

/-- The run at the locks where every worker is between two macros. -/
def atHome (q : PipelineRun κ ι φ) : LockedRun κ ι φ where
  pipe := ChunkGrouping.atHome q.pipe
  files := q.files
  adding := q.current.isSome

/-- **A step** of `main` or of a worker. -/
theorem Runs.step_atHome {q q' : PipelineRun κ ι φ} {a : Actor} (h : Runs feature NotifyHeard r₀ (atHome q))
    (hs : PipelineRun.step feature a q = some q') : Runs feature NotifyHeard r₀ (atHome q') := by
  cases a with
  | worker w =>
    obtain ⟨pipe, hpipe, rfl⟩ := Option.map_eq_some_iff.1 hs
    exact Runs.worker_atHome (r := atHome q) h hpipe
  | main =>
    refine .step (a := .main) h (fun v hv => by cases hv) ?_
    cases hcur : q.current with
    | none =>
      cases hfiles : q.files with
      | nil => simp [PipelineRun.step, hcur, hfiles] at hs
      | cons file files =>
        obtain ⟨name, content⟩ := file
        simp only [PipelineRun.step, hcur, hfiles, Option.some.injEq] at hs
        subst hs
        have hadding : (atHome q).adding = false := by simp [atHome, hcur]
        simp only [LockedRun.step, hadding, Bool.false_eq_true, if_false, show (atHome q).files = _ from hfiles]
        exact congrArg (fun pipe => some { atHome (q.start feature name content files) with pipe })
          (start_atHome (q.pipe.setLoc 0 (Chunker.reinitWithFile (κ := κ) content (q.pipe.loc 0)).2))
    | some fileMeta =>
      simp only [PipelineRun.step, hcur] at hs
      split at hs
      · rename_i hall
        rw [← Option.some.inj hs]
        have hall' : ((List.range 5).all fun w => ((atHome q).pipe.pc w).isReturned) = true := by
          rw [← hall]
          exact congrArg _ (funext fun w => Pc.isReturned_home w _)
        have hadding : (atHome q).adding = true := by simp [atHome, hcur]
        rw [LockedRun.step, if_pos hadding, if_pos hall']
        rfl
      · cases hs

end LockedRun

/-- **Every order of the queues comes about at the locks.** For every run with atomic queues there is a run at the
locks, with each notification heard, that ends with the same members, queues, flags and files, with no lock taken and
every worker between two macros, where its phase says. -/
theorem queues_realised_at_locks (feature : Chunk → φ) (k : κ) (index : ι) (cacheSize : ℕ)
    (files : List (String × FileContent)) (schedule : List Actor) (q : PipelineRun κ ι φ)
    (hq : PipelineRun.exec feature schedule (.new k index cacheSize files) = some q) :
    ∃ r : LockedRun κ ι φ, LockedRun.Runs feature LockedRun.NotifyHeard (.new k index cacheSize files) r ∧
      r.files = q.files ∧ r.adding = q.current.isSome ∧
      r.pipe.loc = q.pipe.loc ∧ r.pipe.queue = q.pipe.queue ∧ r.pipe.done = q.pipe.done ∧
      ∀ w, r.pipe.owner w = none ∧ r.pipe.pc w = .home w (q.pipe.phase w) := by
  have hruns : LockedRun.Runs feature LockedRun.NotifyHeard (.new k index cacheSize files) (LockedRun.atHome q) := by
    have hstep : ∀ a (q q' : PipelineRun κ ι φ),
        LockedRun.Runs feature LockedRun.NotifyHeard (.new k index cacheSize files) (LockedRun.atHome q) →
        PipelineRun.step feature a q = some q' →
        LockedRun.Runs feature LockedRun.NotifyHeard (.new k index cacheSize files) (LockedRun.atHome q') :=
      fun _ _ _ h hs => h.step_atHome hs
    exact Scheduled.exec_inv hstep schedule (.start _) hq
  exact ⟨LockedRun.atHome q, hruns, rfl, rfl, rfl, rfl, rfl, fun w => ⟨rfl, rfl⟩⟩

/-- A file of a base, a delta and a duplicate, to its end. -/
theorem queues_realised_at_locks_three : ∃ r : LockedRun FastCDC BestFitIndex (Feature ℚ),
    LockedRun.Runs OdessSubfeatures.call LockedRun.NotifyHeard
      (.new (FastCDC.new 1 1 0) (BestFitIndex.new (.byInsertion _) 12) 1 [("a", some [7, 8, 8])]) r ∧
    r.adding = false ∧ (∀ w, w < 4 → r.pipe.done w = true) ∧
    (membersOf r.pipe.loc).writer.calls = [.writeBase ⟨[7], 0⟩, .encode ⟨[8], 1⟩ 0, .writeDelta ⟨[8], 1⟩ 0,
      .writeDuplicate ⟨[8], 2⟩ 1] := by
  have hrun : ((PipelineRun.exec (OdessSubfeatures.call : Chunk → Feature ℚ) PipelineRun.interleaved
      (.new (FastCDC.new 1 1 0) (BestFitIndex.new (.byInsertion _) 12) 1 [("a", some [7, 8, 8])])).map
        fun q => (q.current, (List.range 4).map q.pipe.done, (membersOf q.pipe.loc).writer.calls)) =
      some (none, List.replicate 4 true, [.writeBase ⟨[7], 0⟩, .encode ⟨[8], 1⟩ 0, .writeDelta ⟨[8], 1⟩ 0,
        .writeDuplicate ⟨[8], 2⟩ 1]) := by decide +kernel
  obtain ⟨q, hq, he⟩ := Option.map_eq_some_iff.1 hrun
  obtain ⟨hcur, he⟩ := Prod.mk.inj he
  obtain ⟨hdones, hcalls⟩ := Prod.mk.inj he
  obtain ⟨r, hruns, -, hadding, hloc, -, hdone, -⟩ := queues_realised_at_locks OdessSubfeatures.call
    (FastCDC.new 1 1 0) (BestFitIndex.new (.byInsertion _) 12) 1 [("a", some [7, 8, 8])] _ q hq
  refine ⟨r, hruns, by rw [hadding, hcur]; rfl, fun w hw => ?_, by rw [hloc, hcalls]⟩
  have hmem : q.pipe.done w ∈ (List.range 4).map q.pipe.done := List.mem_map_of_mem (List.mem_range.2 hw)
  rw [hdones] at hmem
  rw [hdone]
  exact List.eq_of_mem_replicate hmem

end Run

end ChunkGrouping
