import ChunkGrouping.Proof.BestFitIndex
import ChunkGrouping.Proof.FileRange
import ChunkGrouping.Proof.Stages

/-!
# The pipeline is its stages, one chunk after the other

Whatever the schedule, when the workers have returned the chunker has drained the files
and every chunk has gone through dedup, feature, match and write, in order.

* `pass_workers`: a context through all workers is `processChunk`.
* `RunOK`: what holds between two files, and while one is added; `step_ok` for a step of
  a worker or of `main`.
* `pipeline_eq_sequential`: any schedule.
-/

namespace ChunkGrouping

open BoundedPipeline PipelineRun

variable {κ ι φ : Type}

/-- The members in the workers' states. -/
def membersOf (l : ∀ w, WorkerState κ ι w) : Members ι := ⟨l 1, l 3, l 4⟩

/-! ## The workers -/

variable [Chunker κ] [Index ι φ] [Inhabited φ] {feature : Chunk → φ}

theorem processChunk_of_works {m : Members ι} {c : Chunk} {x : Context φ} {index : ι} {writer : Writer}
    (hm : chunkMatchWork (featureCalcWork feature (dedupWork (Context.new c) m.dedup).1) m.index = some (x, index))
    (hw : chunkWriteWork x m.writer = some writer) :
    processChunk feature m c = some ⟨(dedupWork (Context.new c : Context φ) m.dedup).2, index, writer⟩ := by
  unfold processChunk
  simp only [hm, hw, Option.bind_eq_bind, Option.bind_some]

/-- **A context through all workers.** -/
theorem pass_workers {l l' : ∀ w, WorkerState κ ι w} {c : Chunk} {x : Context φ}
    (h : BoundedPipeline.pass (workers feature) 4 (.new c) l = some (x, l')) :
    processChunk feature (membersOf l) c = some (membersOf l') := by
  simp only [BoundedPipeline.pass, workers, Option.bind_eq_bind, Option.bind_some, Option.bind_eq_some_iff,
    Option.some.injEq, Prod.mk.injEq] at h
  obtain ⟨⟨y, l₁⟩, ⟨_, ⟨_, ⟨r, hr, rfl⟩, rfl⟩, hm⟩, ⟨x', w⟩, hw, rfl, rfl⟩ := h
  obtain rfl := Option.some.inj hr
  obtain ⟨⟨z, index⟩, hz, he⟩ := Option.bind_eq_some_iff.1 hm
  obtain ⟨rfl, rfl⟩ := Prod.mk.inj (Option.some.inj he)
  obtain ⟨w', hw', he'⟩ := Option.map_eq_some_iff.1 hw
  obtain ⟨rfl, rfl⟩ := Prod.mk.inj he'
  exact processChunk_of_works (m := membersOf l) hz hw'

/-- **All contexts through all workers.** -/
theorem passAll_workers (cs : List Chunk) : ∀ {l l' : ∀ w, WorkerState κ ι w},
    passAll (workers feature) (cs.map Context.new) l = some l' →
    processChunks feature cs (membersOf l) = some (membersOf l') := by
  induction cs with
  | nil =>
    intro l l' h
    rw [← Option.some.inj h]
    rfl
  | cons c cs ih =>
    intro l l' h
    unfold passAll at h
    rw [List.map_cons, List.foldlM_cons, Option.bind_eq_bind, Option.bind_eq_some_iff] at h
    obtain ⟨l₁, hc, hcs⟩ := h
    obtain ⟨⟨x, _⟩, hp, rfl⟩ := Option.map_eq_some_iff.1 hc
    unfold processChunks
    rw [List.foldlM_cons, pass_workers hp]
    exact ih hcs

/-- `GetNextChunk` returns `cs`, one after the other. -/
inductive Returns : κ → List Chunk → κ → Prop
  | nil (k : κ) : Returns k [] k
  | concat {k k₁ k₂ : κ} {cs : List Chunk} {c : Chunk} : Returns k cs k₁ →
      Chunker.getNextChunk k₁ = some (some c, k₂) → Returns k (cs ++ [c]) k₂

omit [Index ι φ] [Inhabited φ] in
/-- A drain begins with them. -/
theorem Returns.drain {k k₁ k₂ : κ} {cs : List Chunk} (h : Returns k cs k₁) :
    ∀ {fuel : ℕ} {ds : List Chunk}, drainLoop fuel k₁ = some (ds, k₂) →
      drainLoop (cs.length + fuel) k = some (cs ++ ds, k₂) := by
  induction h with
  | nil =>
    intro fuel ds hd
    simpa using hd
  | @concat k₁ k₃ cs c _ hc ih =>
    intro fuel ds hd
    have hstep : drainLoop (fuel + 1) k₁ = some (c :: ds, k₂) := by simp [drainLoop, hc, hd]
    rw [List.length_append, List.length_singleton, Nat.add_assoc, Nat.add_comm 1 fuel, ih hstep, List.append_assoc]
    rfl

/-- **What the chunking worker makes** are the chunks of its calls. -/
theorem returns_workers {k k' : WorkerState κ ι 0} {xs : List (Context φ)} (h : Makes (workers feature) k xs k') :
    ∃ cs, xs = cs.map Context.new ∧ Returns (κ := κ) k cs k' := by
  induction h with
  | nil => exact ⟨[], rfl, .nil _⟩
  | concat _ hp ih =>
    obtain ⟨cs, rfl, hcs⟩ := ih
    obtain ⟨⟨c, k₁⟩, hc, he⟩ := Option.map_eq_some_iff.1 hp
    obtain ⟨hcs', rfl⟩ := Prod.mk.inj he
    obtain ⟨c, rfl, rfl⟩ := Option.map_eq_some_iff.1 hcs'
    exact ⟨cs ++ [c], by simp, hcs.concat hc⟩

/-- **When it is through**, they are a drain. -/
theorem drains_workers {k k' : κ} {xs : List (Context φ)}
    (h : Drains (workers (ι := ι) feature) k xs k') :
    ∃ cs fuel, xs = cs.map Context.new ∧ drainLoop fuel k = some (cs, k') := by
  obtain ⟨m, hm, hnone⟩ := h
  have hend : drainLoop (κ := κ) 1 m = some ([], k') := by
    obtain ⟨⟨c, k₁⟩, hc, he⟩ := Option.map_eq_some_iff.1 hnone
    obtain ⟨hcn, rfl⟩ := Prod.mk.inj he
    obtain rfl := Option.map_eq_none_iff.1 hcn
    simp [drainLoop, hc]
  obtain ⟨cs, rfl, hcs⟩ := returns_workers hm
  exact ⟨cs, cs.length + 1, rfl, by simpa using hcs.drain hend⟩

/-! ## Files -/

/-- The chunker drains the files one after the other. -/
inductive DrainsFiles : List FileContent → κ → List (List Chunk) → κ → Prop
  | nil (k : κ) : DrainsFiles [] k [] k
  | concat {contents : List FileContent} {content : FileContent} {k k₁ k₂ : κ} {css : List (List Chunk)}
      {cs : List Chunk} {fuel : ℕ} : DrainsFiles contents k css k₁ →
      drainLoop fuel (Chunker.reinitWithFile content k₁).2 = some (cs, k₂) →
      DrainsFiles (contents ++ [content]) k (css ++ [cs]) k₂

omit [Index ι φ] [Inhabited φ] in
/-- More rounds drain no more. -/
theorem drainLoop_unique (fuel : ℕ) : ∀ {fuel' : ℕ} {k : κ} {x y : List Chunk × κ},
    drainLoop fuel k = some x → drainLoop fuel' k = some y → x = y := by
  induction fuel with
  | zero => intro fuel' k x y h; cases h
  | succ fuel ih =>
    intro fuel' k x y h h'
    cases fuel' with
    | zero => cases h'
    | succ fuel' =>
      simp only [drainLoop, Option.bind_eq_bind, Option.bind_eq_some_iff] at h h'
      obtain ⟨⟨c, k₁⟩, hc, h⟩ := h
      obtain ⟨⟨c', k₂⟩, hc', h'⟩ := h'
      obtain ⟨rfl, rfl⟩ := Prod.mk.inj (Option.some.inj (hc.symm.trans hc'))
      cases c with
      | none => exact Option.some.inj (h.symm.trans h')
      | some c =>
        simp only [Option.bind_eq_some_iff, Option.some.injEq] at h h'
        obtain ⟨r, hr, rfl⟩ := h
        obtain ⟨r', hr', rfl⟩ := h'
        rw [ih hr hr']

omit [Index ι φ] [Inhabited φ] in
/-- **The chunks of files** are determined. -/
theorem DrainsFiles.unique {contents : List FileContent} {k k₁ : κ} {css : List (List Chunk)}
    (h : DrainsFiles contents k css k₁) : ∀ {css' : List (List Chunk)} {k₂ : κ},
      DrainsFiles contents k css' k₂ → css = css' ∧ k₁ = k₂ := by
  induction h with
  | nil =>
    intro css' k₂ h'
    generalize hc : ([] : List FileContent) = contents at h'
    cases h' with
    | nil => exact ⟨rfl, rfl⟩
    | concat => simp at hc
  | @concat contents content k k₁ k₂ css cs fuel _ hd ih =>
    intro css' k₃ h'
    generalize hc : contents ++ [content] = all at h'
    cases h' with
    | nil => simp at hc
    | concat h' hd' =>
      obtain ⟨rfl, hlast⟩ := List.append_inj' hc rfl
      obtain rfl := (List.cons.inj hlast).1
      obtain ⟨rfl, rfl⟩ := ih h'
      obtain ⟨rfl, rfl⟩ := Prod.mk.inj (drainLoop_unique _ hd hd')
      exact ⟨rfl, rfl⟩

/-- A record names the file and the range of its chunks. -/
def RecordsFile (file : String × FileContent) (cs : List Chunk) (m : FileMeta) : Prop :=
  m.fileName = file.1 ∧ (cs ≠ [] → NamesRange m cs)

/-- **What has been added**: chunks, members and records after the files `done`. -/
structure Added (feature : Chunk → φ) (k₀ : κ) (m₀ : Members ι) (done : List (String × FileContent))
    (css : List (List Chunk)) (k : κ) (m : Members ι) (metas : List FileMeta) : Prop where
  drained : DrainsFiles (done.map Prod.snd) k₀ css k
  processed : processChunks feature css.flatten m₀ = some m
  ids : css.flatten.map Chunk.id = idsFrom 0 css.flatten.length
  next : Chunker.nextChunkId k = css.flatten.length % 2 ^ 32
  length : css.length = done.length
  records : List.Forall₂ (fun f m => RecordsFile f.1 f.2 m) (done.zip css) metas

variable [LawfulChunker κ] {k₀ : κ} {m₀ : Members ι}

/-- The record of a file behind `n` chunks. -/
theorem namesRange_of_ids {name : String} {n : ℕ} {cs : List Chunk}
    (hids : cs.map Chunk.id = idsFrom (n % 2 ^ 32) cs.length) (hne : cs ≠ []) :
    NamesRange ⟨name, n % 2 ^ 32, some ((n + cs.length + (2 ^ 64 - 1)) % 2 ^ 64 % 2 ^ 32)⟩ cs := by
  have hn : n % 2 ^ 32 < 2 ^ 32 := Nat.mod_lt _ (by omega)
  have hpos : 0 < cs.length := List.length_pos_of_ne_nil hne
  have hhead : cs[0]? = some cs[0] := List.getElem?_eq_getElem hpos
  have hlast : cs[cs.length - 1]? = some cs[cs.length - 1] := List.getElem?_eq_getElem (by omega)
  refine ⟨?_, ?_⟩
  · rw [List.head?_eq_getElem?, hhead, Option.map_some, getElem?_id hn hids hhead, Nat.add_zero, Nat.mod_mod]
  · rw [List.getLast?_eq_getElem?, hlast, Option.map_some, getElem?_id hn hids hlast]
    simp only [Option.some.injEq]
    omega

/-- **One more file**, its chunks drained and processed. -/
theorem Added.concat {done : List (String × FileContent)} {css : List (List Chunk)} {k k' : κ}
    {m m' : Members ι} {metas : List FileMeta} (h : Added feature k₀ m₀ done css k m metas)
    (hm₀ : m₀.writer.processedChunk = 0) (name : String) {content : FileContent} {cs : List Chunk} {fuel : ℕ}
    (hd : drainLoop fuel (Chunker.reinitWithFile content k).2 = some (cs, k'))
    (hp : processChunks feature cs m = some m') :
    Added feature k₀ m₀ (done ++ [(name, content)]) (css ++ [cs]) k' m'
      (metas ++ [⟨name, m.writer.processedChunk % 2 ^ 32,
        some ((m'.writer.processedChunk + (2 ^ 64 - 1)) % 2 ^ 64 % 2 ^ 32)⟩]) := by
  obtain ⟨hids, hnext⟩ := ids_drainLoop _ _ hd
  rw [LawfulChunker.next_reinit, h.next] at hids hnext
  have hcount : m.writer.processedChunk = css.flatten.length := by
    rw [(processChunks_ok h.processed).1, hm₀, Nat.zero_add]
  have hflat : (css ++ [cs]).flatten = css.flatten ++ cs := by simp
  refine ⟨?_, ?_, ?_, ?_, by simp [h.length], ?_⟩
  · rw [List.map_append]
    exact h.drained.concat hd
  · have hproc := h.processed
    unfold processChunks at hproc hp ⊢
    rw [hflat, List.foldlM_append, hproc]
    exact hp
  · rw [hflat, List.map_append, h.ids, hids, List.length_append, idsFrom_add,
      iterate_nextId (by omega), Nat.zero_add]
  · rw [hnext, iterate_nextId (Nat.mod_lt _ (by omega)), hflat, List.length_append, Nat.mod_add_mod]
  · rw [List.zip_append h.length.symm]
    refine List.rel_append h.records (.cons ⟨rfl, fun hne => ?_⟩ .nil)
    rw [hcount, (processChunks_ok hp).1, hcount]
    exact namesRange_of_ids hids hne

/-- **What holds at any time**: between two files everything has been added; while a file is added,
everything before it, and the workers are on their way from there. -/
inductive RunOK (feature : Chunk → φ) (k₀ : κ) (m₀ : Members ι) (files : List (String × FileContent))
    (r : PipelineRun κ ι φ) : Prop
  | idle {done : List (String × FileContent)} {css : List (List Chunk)} :
      r.current = none → files = done ++ r.files →
      Added feature k₀ m₀ done css (r.pipe.loc 0) (membersOf r.pipe.loc) r.fileMetas →
      r.pipe.AllReturned → (∀ w, w < 4 → r.pipe.queue w = []) → RunOK feature k₀ m₀ files r
  | adding {done : List (String × FileContent)} {css : List (List Chunk)} {k : κ} {name : String}
      {content : FileContent} {l : ∀ w, WorkerState κ ι w} {ins outs : ℕ → List (Context φ)} :
      files = done ++ (name, content) :: r.files →
      Added feature k₀ m₀ done css k (membersOf l) r.fileMetas →
      l 0 = (Chunker.reinitWithFile content k).2 →
      r.current = some ⟨name, (membersOf l).writer.processedChunk % 2 ^ 32, none⟩ →
      Inv (workers feature) l r.pipe ins outs → RunOK feature k₀ m₀ files r

/-- **The end of a file.** -/
theorem added_of_returned (hm₀ : m₀.writer.processedChunk = 0) {done : List (String × FileContent)}
    {css : List (List Chunk)} {k : κ} (name : String) {content : FileContent} {l : ∀ w, WorkerState κ ι w}
    {ins outs : ℕ → List (Context φ)} {metas : List FileMeta} {r : PipelineRun κ ι φ}
    (h : Added feature k₀ m₀ done css k (membersOf l) metas)
    (hl : l 0 = (Chunker.reinitWithFile content k).2) (hi : Inv (workers feature) l r.pipe ins outs)
    (hall : r.pipe.AllReturned) : (∀ w, w < 4 → r.pipe.queue w = []) ∧
      ∃ cs, Added feature k₀ m₀ (done ++ [(name, content)]) (css ++ [cs]) (r.pipe.loc 0)
        (membersOf r.pipe.loc) (metas ++ [⟨name, (membersOf l).writer.processedChunk % 2 ^ 32,
          some ((r.processedChunk + (2 ^ 64 - 1)) % 2 ^ 64 % 2 ^ 32)⟩]) := by
  obtain ⟨l', hd, hp, hl', hq⟩ := hi.passed hall
  obtain ⟨cs, fuel, hcs, hdrain⟩ := drains_workers hd
  rw [hcs] at hp
  have hproc := passAll_workers cs hp
  have hm : membersOf l' = membersOf r.pipe.loc := by
    unfold membersOf
    rw [hl' 0 (by decide : 0 < 4), hl' 2 (by decide : 2 < 4), hl' 3 (by decide : 3 < 4)]
  rw [hm] at hproc
  rw [hl] at hdrain
  exact ⟨hq, cs, h.concat hm₀ name hdrain hproc⟩

/-- **A step** of a worker or of `main`. -/
theorem step_ok (hm₀ : m₀.writer.processedChunk = 0) {files : List (String × FileContent)}
    {r r' : PipelineRun κ ι φ} {a : Actor} (h : RunOK feature k₀ m₀ files r)
    (hs : PipelineRun.step feature a r = some r') : RunOK feature k₀ m₀ files r' := by
  cases a with
  | worker w =>
    obtain ⟨pipe, hstep, rfl⟩ := Option.map_eq_some_iff.1 hs
    cases h with
    | idle hcur hfiles hadded hall hq =>
      -- between two files no worker steps
      rw [step_returned (hall w)] at hstep
      simp at hstep
    | adding hfiles hadded hl hcur hi =>
      obtain ⟨ins', outs', hi'⟩ := step_inv hi hstep
      exact .adding hfiles hadded hl hcur hi'
  | main =>
    cases h with
    | idle hcur hfiles hadded hall hq =>
      simp only [PipelineRun.step, hcur] at hs
      cases hr : r.files with
      | nil => rw [hr] at hs; simp at hs
      | cons file rest =>
        -- the next file: the workers start again, on the queues they left empty
        obtain ⟨name, content⟩ := file
        rw [hr] at hs hfiles
        rw [← Option.some.inj hs]
        set k : κ := (Chunker.reinitWithFile (κ := κ) content (r.pipe.loc 0)).2
        exact .adding (l := (r.pipe.setLoc 0 k).loc) hfiles hadded (State.setLoc_loc_self 0 k r.pipe) rfl
          (inv_restart (workers feature) (r.pipe.setLoc 0 k) hq)
    | @adding done css k name content l ins outs hfiles hadded hl hcur hi =>
      simp only [PipelineRun.step, hcur] at hs
      split at hs
      · rename_i hret
        -- `join` has seen the five workers return
        rw [← Option.some.inj hs]
        have hall : r.pipe.AllReturned := fun w => by
          rcases Nat.lt_or_ge w 5 with hw | hw
          · exact Phase.isReturned_iff.1 (List.all_eq_true.1 hret w (List.mem_range.2 hw))
          · exact hi.idle w hw
        obtain ⟨hq, cs, hadded'⟩ := added_of_returned hm₀ name hadded hl hi hall
        exact .idle rfl (by rw [hfiles]; simp [PipelineRun.join]) hadded' hall hq
      · simp at hs

/-- **Any schedule.** -/
theorem exec_ok (hm₀ : m₀.writer.processedChunk = 0) {files : List (String × FileContent)}
    (schedule : List Actor) : ∀ {r r' : PipelineRun κ ι φ}, RunOK feature k₀ m₀ files r →
      PipelineRun.exec feature schedule r = some r' → RunOK feature k₀ m₀ files r' := by
  induction schedule with
  | nil =>
    intro r r' h hr
    rw [← Option.some.inj hr]
    exact h
  | cons a schedule ih =>
    intro r r' h hr
    unfold PipelineRun.exec at hr ih
    rw [List.foldlM_cons, Option.bind_eq_bind, Option.bind_eq_some_iff] at hr
    obtain ⟨r₁, hs, hr⟩ := hr
    exact ih (step_ok hm₀ h hs) hr

omit [LawfulChunker κ] in
theorem runOK_new (feature : Chunk → φ) (hk₀ : Chunker.nextChunkId k₀ = 0) (index : ι) (cacheSize : ℕ)
    (files : List (String × FileContent)) :
    RunOK feature k₀ ⟨{}, index, { storage := .new cacheSize }⟩ files
      (.new k₀ index cacheSize files : PipelineRun κ ι φ) :=
  .idle rfl (show files = [] ++ files from rfl)
    (show Added _ _ _ [] [] _ _ _ from ⟨.nil k₀, rfl, rfl, hk₀, rfl, .nil⟩) (fun _ => rfl) fun _ _ => rfl

/-- **When the workers have returned**, everything up to here has been added. -/
theorem RunOK.of_returned (hm₀ : m₀.writer.processedChunk = 0) {files : List (String × FileContent)}
    {r : PipelineRun κ ι φ} (h : RunOK feature k₀ m₀ files r) (hall : r.pipe.AllReturned) :
    (∀ w, w < 4 → r.pipe.queue w = []) ∧ ∃ done css metas, files = done ++ r.files ∧
      Added feature k₀ m₀ done css (r.pipe.loc 0) (membersOf r.pipe.loc) metas ∧
      (r.current = none → metas = r.fileMetas) := by
  cases h with
  | @idle done css hcur hfiles hadded _ hq => exact ⟨hq, done, css, _, hfiles, hadded, fun _ => rfl⟩
  | @adding done css k name content l ins outs hfiles hadded hl hcur hi =>
    obtain ⟨hq, cs, hadded'⟩ := added_of_returned hm₀ name hadded hl hi hall
    refine ⟨hq, _, _, _, by rw [hfiles]; simp, hadded', fun hnone => ?_⟩
    rw [hcur] at hnone
    cases hnone

/-- **The pipeline is its sequential composition.** In any state a schedule leads to, no queue has more
than 128 entries and the context in the write worker's hands has a type it knows. When the workers
have returned, the queues are empty; the chunker has drained the files added so far, its chunks are
numbered on from 0 and each of them has been stored once, in order; the members are those of taking
chunk after chunk through dedup, feature, match and write; and after `AddFile` every file has its
record, with the first and the last id of its chunks. -/
theorem pipeline_eq_sequential (feature : Chunk → φ) {k₀ : κ} (hk₀ : Chunker.nextChunkId k₀ = 0) (index : ι)
    (cacheSize : ℕ) (files : List (String × FileContent)) (schedule : List Actor) (r : PipelineRun κ ι φ)
    (hr : PipelineRun.exec feature schedule (.new k₀ index cacheSize files) = some r) :
    (∀ w, w < 4 → (r.pipe.queue w).length ≤ 128) ∧
      (∀ x, r.pipe.phase 4 = .work x →
        x.chunkType = BaseChunk ∨ x.chunkType = DeltaChunk ∨ x.chunkType = DuplicateChunk) ∧
      (r.current = none → r.pipe.AllReturned) ∧
      (r.pipe.AllReturned → (∀ w, w < 4 → r.pipe.queue w = []) ∧
        ∃ done css k m, files = done ++ r.files ∧ DrainsFiles (done.map Prod.snd) k₀ css k ∧
          css.flatten.map Chunk.id = idsFrom 0 css.flatten.length ∧
          processChunks feature css.flatten ⟨{}, index, { storage := .new cacheSize }⟩ = some m ∧
          r.pipe.loc 0 = k ∧ membersOf r.pipe.loc = m ∧
          m.writer.calls.filterMap StoreOp.chunkWritten = css.flatten ∧
          (r.current = none → css.length = done.length ∧
            List.Forall₂ (fun f m => RecordsFile f.1 f.2 m) (done.zip css) r.fileMetas)) := by
  have hok := exec_ok rfl schedule (runOK_new feature hk₀ index cacheSize files) hr
  refine ⟨fun w hw => ?_, fun x hx => ?_, fun hnone => ?_, fun hall => ?_⟩
  · cases hok with
    | idle hcur hfiles hadded hall hq => simp [hq w hw]
    | adding hfiles hadded hl hcur hi => exact hi.cap w hw
  · cases hok with
    | idle hcur hfiles hadded hall hq => simp [hall 4] at hx
    | adding hfiles hadded hl hcur hi =>
      exact hi.work_of (u := 2) (fun _ _ _ _ h => (chunkMatchWork_ok (ι := ι) h).2) hx
  · cases hok with
    | idle hcur hfiles hadded hall hq => exact hall
    | adding hfiles hadded hl hcur hi =>
      rw [hcur] at hnone
      cases hnone
  · obtain ⟨hq, done, css, metas, hfiles, hadded, hmetas⟩ := hok.of_returned rfl hall
    refine ⟨hq, done, css, _, _, hfiles, hadded.drained, hadded.ids, hadded.processed, rfl, rfl,
      (processChunks_ok hadded.processed).2, fun hnone => ⟨hadded.length, ?_⟩⟩
    rw [← hmetas hnone]
    exact hadded.records

/-- A schedule for a file of three chunks, with all workers at work. -/
def PipelineRun.interleaved : List Actor :=
  .main :: ([0, 0, 1, 0, 1, 0, 1, 2, 0, 1, 2, 0, 1, 2, 3, 0, 1, 2, 3, 0, 1, 2, 3, 4, 1, 2, 3, 4, 1, 2, 3, 1, 2, 3, 4, 1, 2,
    3, 4, 2, 3, 2, 3, 4, 3, 4, 3, 4].map Actor.worker ++ [.main])

open InsertMap in
/-- A file of a base, a delta and a duplicate. -/
theorem pipeline_eq_sequential_three : ∃ r : PipelineRun FastCDC BestFitIndex (Feature ℚ),
    PipelineRun.exec OdessSubfeatures.call PipelineRun.interleaved
        (.new (FastCDC.new 1 1 0) (BestFitIndex.new (.byInsertion _) 12) 1 [("a", some [7, 8, 8])]) = some r ∧
      r.fileMetas = [⟨"a", 0, some 2⟩] ∧ (∀ w, w < 4 → r.pipe.queue w = []) ∧
      (membersOf r.pipe.loc).writer.calls = [.writeBase ⟨[7], 0⟩, .encode ⟨[8], 1⟩ 0, .writeDelta ⟨[8], 1⟩ 0,
        .writeDuplicate ⟨[8], 2⟩ 1] ∧
      processChunks (OdessSubfeatures.call : Chunk → Feature ℚ) [⟨[7], 0⟩, ⟨[8], 1⟩, ⟨[8], 2⟩]
        ⟨{}, BestFitIndex.new (.byInsertion _) 12, { storage := .new 1 }⟩ = some (membersOf r.pipe.loc) := by
  have hrun : ((PipelineRun.exec (OdessSubfeatures.call : Chunk → Feature ℚ) PipelineRun.interleaved
      (.new (FastCDC.new 1 1 0) (BestFitIndex.new (.byInsertion _) 12) 1 [("a", some [7, 8, 8])])).map
        fun r => (r.fileMetas, r.current, (membersOf r.pipe.loc).writer.calls)) =
      some ([⟨"a", 0, some 2⟩], none, [.writeBase ⟨[7], 0⟩, .encode ⟨[8], 1⟩ 0, .writeDelta ⟨[8], 1⟩ 0,
        .writeDuplicate ⟨[8], 2⟩ 1]) := by decide +kernel
  obtain ⟨r, hr, he⟩ := Option.map_eq_some_iff.1 hrun
  obtain ⟨hmetas, he⟩ := Prod.mk.inj he
  obtain ⟨hcur, hcalls⟩ := Prod.mk.inj he
  obtain ⟨-, -, hret, hall⟩ := pipeline_eq_sequential OdessSubfeatures.call rfl _ _ _ _ r hr
  obtain ⟨hq, done, css, k, m, -, -, -, hm, -, rfl, hchunks, -⟩ := hall (hret hcur)
  rw [hcalls] at hchunks
  rw [← hchunks] at hm
  exact ⟨r, hr, hmetas, hq, hcalls, hm⟩

end ChunkGrouping
