import ChunkGrouping.Lib.Schedule
import ChunkGrouping.Proof.Pipeline

/-!
# What can be done chunk by chunk, a schedule does

The other direction of `Proof/Pipeline`: when the chunker drains a file and its chunks can
be taken through the stages one after the other, there is a schedule after which the
workers have returned and the members are those of the sequence.

* `exec_workers`: a schedule of the workers is one of the program.
* `workers_pass`, `workers_drain`: a chunk, and a drain, as the workers see them.
* `exists_exec`: a file, from `main`'s start to its join.
-/

namespace ChunkGrouping

open BoundedPipeline PipelineRun

variable {κ ι φ : Type} [Chunker κ] [Index ι φ] [Inhabited φ] (feature : Chunk → φ)

/-- **A schedule of the workers** is one of the program. -/
theorem exec_workers (ws : List ℕ) : ∀ {r : PipelineRun κ ι φ}
    {pipe : BoundedPipeline.State (WorkerState κ ι) (Context φ)},
    run (workers feature) ws r.pipe = some pipe →
    PipelineRun.exec feature (ws.map Actor.worker) r = some { r with pipe } := by
  induction ws with
  | nil =>
    intro r pipe h
    obtain rfl := Option.some.inj h
    rfl
  | cons w ws ih =>
    intro r pipe h
    unfold run at h
    rw [List.foldlM_cons, Option.bind_eq_bind, Option.bind_eq_some_iff] at h
    obtain ⟨s, hs, h⟩ := h
    unfold PipelineRun.exec at ih ⊢
    rw [List.map_cons, List.foldlM_cons, PipelineRun.step, hs]
    exact ih (r := { r with pipe := s }) h

theorem exec_append {as bs : List Actor} {r r₁ r₂ : PipelineRun κ ι φ} (h : PipelineRun.exec feature as r = some r₁)
    (h' : PipelineRun.exec feature bs r₁ = some r₂) : PipelineRun.exec feature (as ++ bs) r = some r₂ := by
  unfold PipelineRun.exec at h h' ⊢
  rw [List.foldlM_append, h]
  exact h'

/-- **A chunk through the stages** is a context through the workers. -/
theorem workers_pass {l : ∀ w, WorkerState κ ι w} {c : Chunk} {m : Members ι}
    (h : processChunk feature (membersOf l) c = some m) :
    ∃ x l', BoundedPipeline.pass (workers feature) 4 (.new c) l = some (x, l') ∧ membersOf l' = m := by
  simp only [processChunk, Option.bind_eq_bind, Option.bind_eq_some_iff, Option.some.injEq] at h
  obtain ⟨⟨x, index⟩, hm, writer, hw, rfl⟩ := h
  have hm' : chunkMatchWork (ι := ι) (featureCalcWork feature (dedupWork (Context.new c) (l 1)).1) (l 3) =
      some (x, index) := hm
  have hw' : chunkWriteWork x (l 4) = some writer := hw
  -- what comes to each worker, and what it is left with
  let b : ℕ → Context φ
    | 0 => .new c
    | 1 => (dedupWork (Context.new c : Context φ) (l 1)).1
    | 2 => featureCalcWork feature (dedupWork (Context.new c) (l 1)).1
    | _ + 3 => x
  let t : ∀ w, WorkerState κ ι (w + 1)
    | 0 => (dedupWork (Context.new c : Context φ) (l 1)).2
    | 1 => ()
    | 2 => index
    | _ + 3 => writer
  have hworks : ∀ w, w < 4 → (workers feature).work (w + 1) (l (w + 1)) (b w) = some (b (w + 1), t w) := by
    intro w hw
    match w with
    | 0 => rfl
    | 1 => rfl
    | 2 => exact hm'
    | 3 => exact congrArg (Option.map fun w => (x, w)) hw'
    | _ + 4 => omega
  obtain ⟨l', hp, ht, -⟩ := pass_of_works hworks
  refine ⟨x, l', hp, ?_⟩
  unfold membersOf
  rw [ht 0 (by omega), ht 2 (by omega), ht 3 (by omega)]

/-- **All of them.** -/
theorem workers_passAll (cs : List Chunk) : ∀ {l : ∀ w, WorkerState κ ι w} {m : Members ι},
    processChunks feature cs (membersOf l) = some m →
    ∃ l', passAll (workers feature) (cs.map Context.new) l = some l' ∧ membersOf l' = m := by
  induction cs with
  | nil =>
    intro l m h
    exact ⟨l, rfl, Option.some.inj h⟩
  | cons c cs ih =>
    intro l m h
    unfold processChunks at h ih
    rw [List.foldlM_cons, Option.bind_eq_bind, Option.bind_eq_some_iff] at h
    obtain ⟨m₁, hc, hcs⟩ := h
    obtain ⟨x, l₁, hp, rfl⟩ := workers_pass feature hc
    obtain ⟨l', hl', hm⟩ := ih hcs
    refine ⟨l', ?_, hm⟩
    unfold passAll at hl' ⊢
    rw [List.map_cons, List.foldlM_cons]
    change ((BoundedPipeline.pass (workers feature) 4 (Context.new c) l).map Prod.snd >>= _) = _
    rw [hp]
    exact hl'

/-- **A drain** is what the chunking worker makes. -/
theorem workers_drain (fuel : ℕ) : ∀ {k k' : κ} {cs : List Chunk}, drainLoop fuel k = some (cs, k') →
    Drains (workers (ι := ι) feature) k (cs.map Context.new) k' := by
  induction fuel with
  | zero => intro k k' cs h; simp [drainLoop] at h
  | succ fuel ih =>
    intro k k' cs h
    simp only [drainLoop, Option.bind_eq_bind, Option.bind_eq_some_iff] at h
    obtain ⟨⟨chunk, k₁⟩, hc, h⟩ := h
    cases chunk with
    | none =>
      obtain ⟨rfl, rfl⟩ := Prod.mk.inj (Option.some.inj h)
      exact ⟨k, Makes.nil (P := workers (ι := ι) feature) k, by simp [workers, hc]⟩
    | some c =>
      simp only [Option.bind_eq_some_iff, Option.some.injEq, Prod.mk.injEq] at h
      obtain ⟨⟨cs', k₂⟩, hd, rfl, rfl⟩ := h
      obtain ⟨m, hm, hnone⟩ := ih hd
      exact ⟨m, hm.cons (by simp [workers, hc]), hnone⟩

/-- **A file, from `main`'s start to its join.** -/
theorem exists_exec {r : PipelineRun κ ι φ} {name : String} {content : FileContent}
    {files : List (String × FileContent)} {fuel : ℕ} {cs : List Chunk} {k : κ} {m : Members ι}
    (hcur : r.current = none) (hfiles : r.files = (name, content) :: files)
    (hq : ∀ w, w < 4 → r.pipe.queue w = [])
    (hd : drainLoop fuel (Chunker.reinitWithFile (κ := κ) content (r.pipe.loc 0)).2 = some (cs, k))
    (hp : processChunks feature cs (membersOf r.pipe.loc) = some m) :
    ∃ schedule r', PipelineRun.exec feature schedule r = some r' ∧ r'.current = none ∧ r'.files = files ∧
      r'.pipe.AllReturned ∧ (∀ w, w < 4 → r'.pipe.queue w = []) ∧ (r'.pipe.loc 0 : κ) = k ∧
      membersOf r'.pipe.loc = m := by
  set k₀ : κ := (Chunker.reinitWithFile (κ := κ) content (r.pipe.loc 0)).2 with hk₀
  obtain ⟨l', hpass, hm⟩ := workers_passAll feature cs (l := (r.pipe.setLoc 0 k₀).loc) hp
  have hdrain : Drains (workers feature) ((r.pipe.setLoc 0 k₀).loc 0) (cs.map Context.new) k := by
    have hloc := State.setLoc_loc_self 0 k₀ r.pipe
    exact hloc.symm ▸ workers_drain feature fuel hd
  obtain ⟨ws, pipe, hrun, hret, hq', hloc⟩ := exists_run (P := workers feature) (s := r.pipe.setLoc 0 k₀)
    (by decide : 0 < 4) (by decide : 0 < 128) hq hdrain hpass
  have hstart : PipelineRun.exec feature [.main] r = some (r.start feature name content files) := by
    simp [PipelineRun.exec, PipelineRun.step, hcur, hfiles]
  have hwork := exec_workers feature ws (r := r.start feature name content files) hrun
  have hjoin : PipelineRun.exec feature [.main] { r.start feature name content files with pipe } =
      some (PipelineRun.join ⟨name, r.processedChunk % 2 ^ 32, none⟩
        { r.start feature name content files with pipe }) := by
    have hall : ((List.range 5).all fun w => (pipe.phase w).isReturned) = true :=
      List.all_eq_true.2 fun w _ => Phase.isReturned_iff.2 (hret w)
    simp only [PipelineRun.exec, List.foldlM_cons, List.foldlM_nil, PipelineRun.step, PipelineRun.start, hall, if_true]
    rfl
  refine ⟨_, _, exec_append feature hstart (exec_append feature hwork hjoin), rfl, rfl, hret, hq', ?_, ?_⟩
  · exact (congrFun hloc 0).trans (Function.update_self ..)
  · show membersOf pipe.loc = m
    rw [hloc, ← hm]
    rfl

end ChunkGrouping
