import ChunkGrouping.Model.Chunker
import ChunkGrouping.Model.Index
import ChunkGrouping.Model.Storage

/-!
# `DeltaCompression::AddFile` (`delta_compression.cpp`, `storage/file_meta.h`)

The sequential mode. A chunk is looked up in the index; without a match it becomes a
base and is added to the index, with one it is written as a delta.

`end_chunk_id` is not initialised by `FileMeta` and set for deltas only: none stands
for whatever was in memory. `start_chunk_id` is a `uint32_t`, so `-1` is `2^32 - 1`.
-/

namespace ChunkGrouping

/-- `struct FileMeta`. -/
structure FileMeta where
  fileName : String
  startChunkId : ℕ
  endChunkId : Option ℕ
deriving DecidableEq, Repr

/-- The members of `DeltaCompression` the chunks go to. The two sizes are `size_t`s that are only added to, as those
of `Totals` are. -/
structure DeltaState (ι : Type) where
  index : ι
  storage : Storage
  totals : Totals := {}
  baseChunkCount : UInt32 := 0
  deltaChunkCount : UInt32 := 0
  chunkSizeBeforeDelta : ℕ := 0
  chunkSizeAfterDelta : ℕ := 0

/-- The state of a `DeltaCompression`. -/
structure DeltaCompression (κ ι : Type) extends DeltaState ι where
  chunker : κ
  /-- what `file_meta_writer_` wrote -/
  fileMetas : List FileMeta := []

variable {κ ι φ : Type} [Chunker κ] [Index ι φ]

namespace DeltaState

/-- `write_base_chunk`. -/
def writeBaseChunk (chunk : Chunk) (d : DeltaState ι) : DeltaState ι :=
  { d with
    storage := d.storage.writeBaseChunk chunk
    baseChunkCount := d.baseChunkCount + 1
    totals := { d.totals with totalSizeOrigin := d.totals.totalSizeOrigin + chunk.len } }

/-- `write_delta_chunk`. -/
def writeDeltaChunk (chunk deltaChunk : Chunk) (baseChunkId : ℕ) (d : DeltaState ι) : DeltaState ι :=
  { d with
    storage := (d.storage.writeDeltaChunk deltaChunk baseChunkId).2
    chunkSizeBeforeDelta := d.chunkSizeBeforeDelta + chunk.len
    deltaChunkCount := d.deltaChunkCount + 1
    chunkSizeAfterDelta := d.chunkSizeAfterDelta + deltaChunk.len }

/-- The body of the loop for a chunk. -/
def addChunk (feature : Chunk → φ) (chunk : Chunk) (fileMeta : FileMeta) (d : DeltaState ι) :
    Option (FileMeta × DeltaState ι) := do
  let fileMeta :=
    if fileMeta.startChunkId = 2 ^ 32 - 1 then { fileMeta with startChunkId := chunk.id } else fileMeta
  let f := feature chunk
  match ← Index.getBaseChunkID f d.index with
  | none =>
    let index ← Index.addFeature f chunk.id d.index
    some (fileMeta, { d with index }.writeBaseChunk chunk)
  | some baseChunkId =>
    let (deltaChunk, storage) ← d.storage.getDeltaEncodedChunk chunk baseChunkId
    some ({ fileMeta with endChunkId := some chunk.id },
      { d with storage }.writeDeltaChunk chunk deltaChunk baseChunkId)

end DeltaState

/-- The loop of `AddFile`, with as many rounds as a drain has. -/
def addLoop (feature : Chunk → φ) : ℕ → FileMeta → κ → DeltaState ι → Option (FileMeta × κ × DeltaState ι)
  | 0, _, _, _ => none
  | fuel + 1, fileMeta, k, d => do
    let (chunk, k) ← Chunker.getNextChunk k
    match chunk with
    | none => some (fileMeta, k, d)
    | some chunk =>
      let (fileMeta, d) ← d.addChunk feature chunk fileMeta
      addLoop feature fuel fileMeta k d

namespace DeltaCompression

/-- `DeltaCompression()`, the configuration read. -/
def new (chunker : κ) (index : ι) (cacheSize : ℕ) : DeltaCompression κ ι :=
  { chunker, index, storage := .new cacheSize }

/-- `AddFile`. The result of `ReinitWithFile` is ignored. -/
def addFile (codec : Codec) (feature : Chunk → φ) (fileName : String) (content : FileContent)
    (d : DeltaCompression κ ι) : Option (DeltaCompression κ ι) := do
  let fileMeta : FileMeta := { fileName, startChunkId := 2 ^ 32 - 1, endChunkId := none }
  let k := (Chunker.reinitWithFile content d.chunker).2
  let (fileMeta, chunker, s) ← addLoop feature (Chunker.remainingFileLen k + 1) fileMeta k d.toDeltaState
  let g ← s.storage.groupByBase codec 16 s.totals
  some { s with
    chunker
    fileMetas := d.fileMetas ++ [fileMeta]
    storage := g.storage
    totals := g.totals }

/-- `main`: `AddFile` for each file. -/
def addFiles (codec : Codec) (feature : Chunk → φ) :
    List (String × FileContent) → DeltaCompression κ ι → Option (DeltaCompression κ ι)
  | [], d => some d
  | (fileName, content) :: files, d => do
    let d ← d.addFile codec feature fileName content
    addFiles codec feature files d

end DeltaCompression

end ChunkGrouping
