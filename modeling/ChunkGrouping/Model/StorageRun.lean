import ChunkGrouping.Model.Storage

/-!
# Runs of a `Storage`

A run is a list of calls. `Written` is what a write is asked to store, whatever the
files look like: the record type, the base id, the bytes.
-/

namespace ChunkGrouping

/-- A call. -/
inductive StoreOp where
  | writeBase (chunk : Chunk)
  | writeDelta (chunk : Chunk) (baseChunkId : ℕ)
  | writeDuplicate (chunk : Chunk) (baseChunkId : ℕ)
  | get (id : ℕ)
  | encode (chunk : Chunk) (baseChunkId : ℕ)
  | divide (t : Totals)
  | group (groupSize : ℕ) (t : Totals)
deriving DecidableEq

/-- The store after a call. -/
def StoreOp.run (codec : Codec) : StoreOp → Storage → Option Storage
  | writeBase chunk, s => some (s.writeBaseChunk chunk)
  | writeDelta chunk b, s => some (s.writeDeltaChunk chunk b).2
  | writeDuplicate chunk b, s => s.writeDuplicateChunk chunk b
  | get id, s => (s.getChunkContent id).map Prod.snd
  | encode chunk b, s => (s.getDeltaEncodedChunk chunk b).map Prod.snd
  | divide t, s => (s.dividByBase codec t).map fun r => r.2.2
  | group groupSize t, s => (s.groupByBase codec groupSize t).map GroupState.storage

/-- The store after a list of calls. -/
def runOps (codec : Codec) (ops : List StoreOp) (s : Storage) : Option Storage :=
  ops.foldlM (fun s op => op.run codec s) s

/-- What a write is asked to store. -/
structure Written where
  type : UInt8
  baseChunkId : ℕ
  bytes : List UInt8
deriving DecidableEq, Repr

/-- What a call writes. -/
def StoreOp.written : StoreOp → List Written
  | writeBase chunk => [⟨BaseChunk, chunk.id, chunk.buf⟩]
  | writeDelta chunk b => [⟨DeltaChunk, b, chunk.buf⟩]
  | writeDuplicate chunk b => [⟨DuplicateChunk, b, chunk.buf⟩]
  | _ => []

/-- What a list of calls writes. -/
def written (ops : List StoreOp) : List Written := ops.flatMap StoreOp.written

/-- A chunk that can be written next: numbered by the records before it, short enough for the
size field. -/
structure Next (ws : List Written) (chunk : Chunk) : Prop where
  id : chunk.id = ws.length
  id_lt : chunk.id < 2 ^ 32
  len : chunk.len ≤ 65535

end ChunkGrouping
