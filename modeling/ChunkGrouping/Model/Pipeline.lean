import ChunkGrouping.Lib.Pipeline
import ChunkGrouping.Model.Dedup
import ChunkGrouping.Model.DeltaCompression
import ChunkGrouping.Model.StorageRun

/-!
# `PipelineDeltaCompression` (`pipeline_delta_compression.h`, `pipeline_delta_compression.cpp`)

Five workers, each with the members that only it uses: `ChunkingWorker` (0) the chunker,
`DedupWorker` (1) `dedup_`, `FeatureCalcWorker` (2) none, `ChunkMatchWorker` (3) `index_`,
`ChunkWriteWorker` (4) the storage and the counters. `chunk_queue_`, `dedup_queue_`,
`feature_queue_` and `match_queue_` are queues 0 to 3 between them; a push and a pop are
one step each.

`processChunk` takes one chunk through all of them.
-/

namespace ChunkGrouping

open BoundedPipeline

/-- `struct context`. -/
structure Context (φ : Type) where
  chunk : Chunk
  baseChunkId : ℕ
  chunkType : UInt8
  feature : φ
deriving DecidableEq, Repr

/-- The members `ChunkWriteWorker` uses, and the calls of `storage_` so far. The numbers are `size_t`s that are only
added to, as those of `Totals` are; `join` takes `processed_chunk_` modulo `2 ^ 64`. -/
structure Writer where
  storage : Storage
  totals : Totals := {}
  baseChunkCount : UInt32 := 0
  deltaChunkCount : UInt32 := 0
  duplicateChunkCount : UInt32 := 0
  chunkSizeBeforeDelta : ℕ := 0
  chunkSizeAfterDelta : ℕ := 0
  processedChunk : ℕ := 0
  calls : List StoreOp := []

variable {κ ι φ : Type}

/-- `new context()`, with `chunk` and `chunk_type` set. -/
def Context.new [Inhabited φ] (chunk : Chunk) : Context φ :=
  { chunk, baseChunkId := 0, chunkType := 0, feature := default }

/-! ## What the workers do with a context -/

/-- `DedupWorker`. -/
def dedupWork (x : Context φ) (d : Dedup) : Context φ × Dedup :=
  let (dedupBaseId, d) := d.processChunk x.chunk
  if dedupBaseId ≠ x.chunk.id then ({ x with chunkType := DuplicateChunk, baseChunkId := dedupBaseId }, d)
  else (x, d)

/-- `FeatureCalcWorker`. -/
def featureCalcWork (feature : Chunk → φ) (x : Context φ) : Context φ :=
  if x.chunkType ≠ DuplicateChunk then { x with feature := feature x.chunk } else x

/-- `ChunkMatchWorker`. -/
def chunkMatchWork [Index ι φ] (x : Context φ) (index : ι) : Option (Context φ × ι) :=
  if x.chunkType ≠ DuplicateChunk then do
    match ← Index.getBaseChunkID x.feature index with
    | none =>
      let index ← Index.addFeature x.feature x.chunk.id index
      some ({ x with chunkType := BaseChunk }, index)
    | some baseChunkId => some ({ x with chunkType := DeltaChunk, baseChunkId }, index)
  else some (x, index)

/-- `case DuplicateChunk`. -/
def Writer.duplicate (x : Context φ) (w : Writer) : Option Writer := do
  let storage ← w.storage.writeDuplicateChunk x.chunk x.baseChunkId
  some { w with
    duplicateChunkCount := w.duplicateChunkCount + 1
    storage
    calls := w.calls ++ [.writeDuplicate x.chunk x.baseChunkId] }

/-- `case BaseChunk`. -/
def Writer.base (x : Context φ) (w : Writer) : Writer :=
  { w with
    baseChunkCount := w.baseChunkCount + 1
    totals := { w.totals with totalSizeCompressed := w.totals.totalSizeCompressed + x.chunk.len }
    storage := w.storage.writeBaseChunk x.chunk
    calls := w.calls ++ [.writeBase x.chunk] }

/-- `case DeltaChunk`. -/
def Writer.delta (x : Context φ) (w : Writer) : Option Writer := do
  let (deltaChunk, storage) ← w.storage.getDeltaEncodedChunk x.chunk x.baseChunkId
  some { w with
    deltaChunkCount := w.deltaChunkCount + 1
    chunkSizeBeforeDelta := w.chunkSizeBeforeDelta + x.chunk.len
    chunkSizeAfterDelta := w.chunkSizeAfterDelta + deltaChunk.len
    totals := { w.totals with totalSizeCompressed := w.totals.totalSizeCompressed + deltaChunk.len }
    storage := (storage.writeDeltaChunk deltaChunk x.baseChunkId).2
    calls := w.calls ++ [.encode x.chunk x.baseChunkId, .writeDelta deltaChunk x.baseChunkId] }

/-- `switch (context_->chunk_type)`. The default is `LOG(FATAL)`. -/
def Writer.switchType (x : Context φ) (w : Writer) : Option Writer :=
  if x.chunkType = DuplicateChunk then w.duplicate x
  else if x.chunkType = BaseChunk then some (w.base x)
  else if x.chunkType = DeltaChunk then w.delta x
  else none

/-- `ChunkWriteWorker`. -/
def chunkWriteWork (x : Context φ) (w : Writer) : Option Writer := do
  let totals := { w.totals with totalSizeOrigin := w.totals.totalSizeOrigin + x.chunk.len }
  let w ← { w with totals }.switchType x
  some { w with processedChunk := w.processedChunk + 1 }

/-! ## One chunk after the other -/

/-- The members of the workers behind `ChunkingWorker`. -/
structure Members (ι : Type) where
  dedup : Dedup
  index : ι
  writer : Writer

/-- Dedup, feature, match and write for one chunk. -/
def processChunk [Index ι φ] [Inhabited φ] (feature : Chunk → φ) (m : Members ι) (chunk : Chunk) :
    Option (Members ι) := do
  let (x, dedup) := dedupWork (.new chunk) m.dedup
  let (x, index) ← chunkMatchWork (featureCalcWork feature x) m.index
  let writer ← chunkWriteWork x m.writer
  some { dedup, index, writer }

/-- Chunk 0, then chunk 1, and so on. -/
def processChunks [Index ι φ] [Inhabited φ] (feature : Chunk → φ) (chunks : List Chunk) (m : Members ι) :
    Option (Members ι) := chunks.foldlM (processChunk feature) m

/-! ## The workers -/

/-- The members of each worker. -/
def WorkerState (κ ι : Type) : ℕ → Type
  | 0 => κ
  | 1 => Dedup
  | 2 => Unit
  | 3 => ι
  | _ + 4 => Writer

/-- The five workers. `max_queue_len_` is 128. -/
def workers [Chunker κ] [Index ι φ] [Inhabited φ] (feature : Chunk → φ) :
    Program (WorkerState κ ι) (Context φ) where
  last := 4
  cap := 128
  produce (k : κ) := (Chunker.getNextChunk k).map fun (chunk, k) => (chunk.map Context.new, k)
  work
    | 0, k, x => some (x, k)
    | 1, d, x => some (dedupWork x d)
    | 2, u, x => some (featureCalcWork feature x, u)
    | 3, index, x => chunkMatchWork (ι := ι) x index
    | _ + 4, w, x => (chunkWriteWork x w).map fun w => (x, w)

/-- The members of the workers between two files. -/
def memberStates (k : κ) (m : Members ι) : ∀ w, WorkerState κ ι w
  | 0 => k
  | 1 => m.dedup
  | 2 => ()
  | 3 => m.index
  | _ + 4 => m.writer

/-! ## `AddFile` and `main` -/

/-- `main` adding files: those it still has, the record of the one being added, the records
written. -/
structure PipelineRun (κ ι φ : Type) where
  pipe : BoundedPipeline.State (WorkerState κ ι) (Context φ)
  files : List (String × FileContent)
  current : Option FileMeta := none
  fileMetas : List FileMeta := []

namespace PipelineRun

/-- `PipelineDeltaCompression()`. -/
def new (k : κ) (index : ι) (cacheSize : ℕ) (files : List (String × FileContent)) : PipelineRun κ ι φ where
  pipe := {
    loc := memberStates k { dedup := {}, index, writer := { storage := .new cacheSize } }
    phase := fun _ => .returned
    queue := fun _ => []
    done := fun _ => false }
  files

/-- `processed_chunk_`. -/
def processedChunk (r : PipelineRun κ ι φ) : ℕ := Writer.processedChunk (r.pipe.loc 4)

/-- Who steps next. -/
inductive Actor where
  | main
  | worker (w : ℕ)
deriving DecidableEq, Repr

variable [Chunker κ] [Index ι φ] [Inhabited φ] (feature : Chunk → φ)

/-- `AddFile` up to the last `std::thread`. -/
def start (name : String) (content : FileContent) (files : List (String × FileContent))
    (r : PipelineRun κ ι φ) : PipelineRun κ ι φ :=
  let k := (Chunker.reinitWithFile (κ := κ) content (r.pipe.loc 0)).2
  { r with
    files
    current := some { fileName := name, startChunkId := r.processedChunk % 2 ^ 32, endChunkId := none }
    pipe := restart (workers feature) (r.pipe.setLoc 0 k) }

/-- `AddFile` from the first `join` on. `processed_chunk_ - 1` is a `size_t`. -/
def join (fileMeta : FileMeta) (r : PipelineRun κ ι φ) : PipelineRun κ ι φ :=
  let endChunkId := (r.processedChunk + (2 ^ 64 - 1)) % 2 ^ 64 % 2 ^ 32
  { r with current := none, fileMetas := r.fileMetas ++ [{ fileMeta with endChunkId := some endChunkId }] }

/-- A step of `main` or of a worker. -/
def step : Actor → PipelineRun κ ι φ → Option (PipelineRun κ ι φ)
  | .worker w, r => (BoundedPipeline.step (workers feature) w r.pipe).map fun pipe => { r with pipe }
  | .main, r =>
    match r.current, r.files with
    | none, (name, content) :: files => some (r.start feature name content files)
    | none, [] => none
    | some fileMeta, _ =>
      if (List.range 5).all fun w => (r.pipe.phase w).isReturned then some (r.join fileMeta) else none

/-- The state after a schedule. -/
def exec (schedule : List Actor) (r : PipelineRun κ ι φ) : Option (PipelineRun κ ι φ) :=
  schedule.foldlM (fun r a => step feature a r) r

end PipelineRun

end ChunkGrouping
