import ChunkGrouping.Lib.CFile
import ChunkGrouping.Lib.LittleEndian
import ChunkGrouping.Model.ChunkCache

/-!
# `Storage` (`storage/storage.h`, `storage/storage.cpp`)

Two files written side by side: `data_` holds the chunks' bytes, `meta_` one
record of 16 bytes per chunk, addressed by `id * 16`. Every operation moves the
positions of both files; nothing else says where the next write goes.

An operation is `none` when it uses bytes nobody wrote: a record read past the end
of `meta_`, or a chunk buffer that `fread` did not fill.
-/

namespace ChunkGrouping

open CFile LittleEndian

/-- `BaseChunk`. -/
def BaseChunk : UInt8 := 1

/-- `DeltaChunk`. -/
def DeltaChunk : UInt8 := 2

/-- `DuplicateChunk`. -/
def DuplicateChunk : UInt8 := 3

/-- `struct ChunkMeta`. -/
structure ChunkMeta where
  offset : UInt64
  baseChunkId : UInt32
  size : UInt16
  type : UInt8
deriving DecidableEq, Repr

/-- `sizeof(ChunkMeta)`: 15 bytes of fields, aligned to 16. -/
def sizeofChunkMeta : ℕ := 16

/-- The record in memory. The last byte is padding. -/
def ChunkMeta.toBytes (m : ChunkMeta) : List UInt8 :=
  toLE 8 m.offset.toNat ++ toLE 4 m.baseChunkId.toNat ++ toLE 2 m.size.toNat ++ [m.type, 0]

/-- The record in `bytes`, when there are enough of them. -/
def ChunkMeta.ofBytes (bytes : List UInt8) : Option ChunkMeta :=
  if bytes.length = sizeofChunkMeta then
    some {
      offset := .ofNat (ofLE (slice bytes 0 8))
      baseChunkId := .ofNat (ofLE (slice bytes 8 4))
      size := .ofNat (ofLE (slice bytes 12 2))
      type := bytes.getD 14 0 }
  else none

/-- `Chunk::FromFileStream(fp, size, id)`. -/
def Chunk.fromFileStream (size id : ℕ) (f : Stream) : Option (Chunk × Stream) :=
  let (got, f) := fread size f
  if got.length = size then some (⟨got, id⟩, f) else none

/-- The state of a `Storage`. -/
structure Storage where
  dataFile : Stream := {}
  metaFile : Stream := {}
  cache : ChunkCache

namespace Storage

/-- `Storage(..., compress_mode = true, cache_size)`: both files are truncated. -/
def new (cacheSize : ℕ) : Storage := { cache := .new cacheSize }

/-- The body `WriteBaseChunk` and `WriteDeltaChunk` share: a record, then both files are appended to. -/
def writeChunk (type : UInt8) (baseChunkId : ℕ) (chunk : Chunk) (s : Storage) : Storage :=
  let m : ChunkMeta := {
    offset := .ofNat (ftell s.dataFile)
    baseChunkId := .ofNat baseChunkId
    size := .ofNat chunk.len
    type }
  { s with dataFile := fwrite chunk.buf s.dataFile, metaFile := fwrite m.toBytes s.metaFile }

/-- `WriteBaseChunk`: the base id is the chunk's own. -/
def writeBaseChunk (chunk : Chunk) (s : Storage) : Storage := writeChunk BaseChunk chunk.id chunk s

/-- `WriteDeltaChunk`. -/
def writeDeltaChunk (deltaChunk : Chunk) (baseChunkId : ℕ) (s : Storage) : ℕ × Storage :=
  (deltaChunk.len, writeChunk DeltaChunk baseChunkId deltaChunk s)

/-- `GetChunkContent`. -/
def getChunkContent (id : ℕ) (s : Storage) : Option (Chunk × Storage) := do
  let (got, metaFile) := fread sizeofChunkMeta (seekSet (id * sizeofChunkMeta) s.metaFile)
  let m ← ChunkMeta.ofBytes got
  let (rawContent, dataFile) ← Chunk.fromFileStream m.size.toNat id (seekSet m.offset.toNat s.dataFile)
  some (rawContent, { s with metaFile := seekEnd metaFile, dataFile := seekEnd dataFile })

/-- `GetDeltaEncodedChunk`. The encoder is not called: the chunk itself is returned. -/
def getDeltaEncodedChunk (chunk : Chunk) (baseChunkId : ℕ) (s : Storage) : Option (Chunk × Storage) := do
  let (baseChunk, cache) ← s.cache.get baseChunkId
  match baseChunk with
  | some _ => some (chunk, { s with cache })
  | none =>
    let (baseChunk, s) ← getChunkContent baseChunkId { s with cache }
    let cache ← s.cache.add baseChunkId baseChunk
    some (chunk, { s with cache })

/-- `WriteDuplicateChunk`. The record it seeks to is at `base_chunk_id & sizeof(ChunkMeta)`. -/
def writeDuplicateChunk (chunk : Chunk) (baseChunkId : ℕ) (s : Storage) : Option Storage := do
  let (got, metaFile) := fread sizeofChunkMeta (seekSet (baseChunkId &&& sizeofChunkMeta) s.metaFile)
  let baseMeta ← ChunkMeta.ofBytes got
  let m : ChunkMeta := {
    offset := baseMeta.offset
    baseChunkId := .ofNat baseChunkId
    size := .ofNat chunk.len
    type := DuplicateChunk }
  some { s with metaFile := fwrite m.toBytes (seekEnd metaFile) }

end Storage

/-! ## Regrouping -/

/-- The sizes LZ4 and zstd return for the bytes given to them. -/
structure Codec where
  lz4Frame : List UInt8 → ℕ
  lz4Default : List UInt8 → ℕ
  zstd : List UInt8 → ℕ

/-- The sizes for a few bytes, which are only copied: a frame of 15 bytes around them, a token before
them, a frame of 9 bytes around them. -/
def Codec.fewBytes : Codec where
  lz4Frame src := src.length + 15
  lz4Default src := src.length + 1
  zstd src := src.length + 9

/-- The counters of `DeltaCompression` that the grouping gets by reference. They are only added to: a `size_t` of the
code is the number here modulo `2 ^ 64`. What the libraries return for a record fits in an `int`, and there are at most
`2 ^ 32` records, so one grouping does not wrap. -/
structure Totals where
  totalSizeOrigin : ℕ := 0
  totalSizeCompressed : ℕ := 0
  groupingNum : ℕ := 0
  groupingBlocks : ℕ := 0
  singleCompressedSize : ℕ := 0
  zstdTotalSizeCompressed : ℕ := 0
  zstdSingleSizeCompressed : ℕ := 0
deriving DecidableEq, Repr

/-- `std::map<chunk_id, std::vector<std::shared_ptr<Chunk>>>`. -/
abbrev Groups := Std.TreeMap ℕ (List Chunk)

/-- `grouped_chunks[base]`. -/
def Groups.touch (base : ℕ) (g : Groups) : Groups := g.alter base fun v => some (v.getD [])

/-- `grouped_chunks[base].push_back(chunk)`. -/
def Groups.pushBack (base : ℕ) (chunk : Chunk) (g : Groups) : Groups :=
  g.alter base fun v => some (v.getD [] ++ [chunk])

/-- A source buffer: `src_size` as declared to the compressor, the bytes allocated, the bytes
copied so far (`dest_ptr` is behind them). -/
structure SrcBuffer where
  srcSize : ℕ
  allocated : ℕ
  copied : List UInt8 := []
deriving DecidableEq, Repr

/-- `new char[src_size]`. -/
def SrcBuffer.alloc (srcSize : ℕ) : SrcBuffer := { srcSize, allocated := srcSize }

/-- `memcpy(dest_ptr, bytes, n); dest_ptr += n`. `none` past the end of the buffer. -/
def SrcBuffer.memcpy (bytes : List UInt8) (b : SrcBuffer) : Option SrcBuffer :=
  if b.copied.length + bytes.length ≤ b.allocated then some { b with copied := b.copied ++ bytes }
  else none

/-- The `src_size` bytes a compressor reads. `none` when not all of them were copied. -/
def SrcBuffer.src (b : SrcBuffer) : Option (List UInt8) :=
  if b.srcSize ≤ b.copied.length then some (b.copied.take b.srcSize) else none

/-- The buffers handed to the grouped LZ4 and to the grouped zstd compression, in order. -/
structure Grouped where
  lz4 : List SrcBuffer := []
  zstd : List SrcBuffer := []
deriving DecidableEq, Repr

/-- What `groupByBase` works on. -/
structure GroupState where
  storage : Storage
  totals : Totals
  out : Grouped := {}

namespace GroupState

/-- The grouped LZ4 compression of a buffer, `lz4` the call made, and its size counted. -/
def compressLz4 (lz4 : List UInt8 → ℕ) (b : SrcBuffer) (s : GroupState) : Option GroupState := do
  let src ← b.src
  some { s with
    totals := { s.totals with totalSizeCompressed := s.totals.totalSizeCompressed + lz4 src }
    out := { s.out with lz4 := s.out.lz4 ++ [b] } }

/-- The grouped zstd compression of a buffer, and its size counted. -/
def compressZstd (codec : Codec) (b : SrcBuffer) (s : GroupState) : Option GroupState := do
  let src ← b.src
  some { s with
    totals := { s.totals with
      zstdTotalSizeCompressed := s.totals.zstdTotalSizeCompressed + codec.zstd src }
    out := { s.out with zstd := s.out.zstd ++ [b] } }

/-- `GetChunkContent`. -/
def getChunkContent (id : ℕ) (s : GroupState) : Option (Chunk × GroupState) := do
  let (chunk, storage) ← s.storage.getChunkContent id
  some (chunk, { s with storage })

/-- Compressing the base chunk alone: the branch for a base without deltas, and the branch after
the loop, both with `LZ4_compress_default`. -/
def compressBase (codec : Codec) (baseChunkId : ℕ) (s : GroupState) : Option GroupState := do
  let (baseChunk, s) ← s.getChunkContent baseChunkId
  let b ← (SrcBuffer.alloc baseChunk.len).memcpy baseChunk.buf
  let s ← s.compressLz4 codec.lz4Default b
  s.compressZstd codec b

/-- `for (const auto &chunk : chunk_group) memcpy(dest_ptr, chunk->buf(), chunk->len())`. -/
def copyAll : List Chunk → SrcBuffer → Option SrcBuffer
  | [], b => some b
  | chunk :: chunks, b => do
    let b ← b.memcpy chunk.buf
    copyAll chunks b

/-- One round of the batch loop, `chunkGroup` the deltas from `i` to `end`. -/
def compressBatch (codec : Codec) (baseChunkId : ℕ) (chunkGroup : List Chunk) (s : GroupState) :
    Option GroupState := do
  let srcSize := (chunkGroup.map Chunk.len).sum
  -- the inner `group_size` counts the chunks of this batch
  let groupSize := chunkGroup.length
  let s := { s with totals := { s.totals with totalSizeOrigin := s.totals.totalSizeOrigin + srcSize } }
  let (b, s) ← if groupSize < 16 then do
      let (baseChunk, s) ← s.getChunkContent baseChunkId
      let b ← (SrcBuffer.alloc (srcSize + baseChunk.len)).memcpy baseChunk.buf
      some (b, s)
    else some (SrcBuffer.alloc srcSize, s)
  let b ← copyAll chunkGroup b
  let s ← s.compressLz4 codec.lz4Frame b
  s.compressZstd codec b

/-- `for (size_t i = 0; i < delta_chunks.size(); i += group_size)`. With `group_size = 0` the loop
does not end; otherwise `delta_chunks.size()` rounds are enough. -/
def batchLoop (codec : Codec) (groupSize baseChunkId : ℕ) (deltaChunks : List Chunk) :
    ℕ → ℕ → GroupState → Option GroupState
  | fuel, i, s =>
    if i < deltaChunks.length then
      match fuel with
      | 0 => none
      | fuel + 1 => do
        let stop := min (i + groupSize) deltaChunks.length
        let s ← s.compressBatch codec baseChunkId ((deltaChunks.drop i).take (stop - i))
        batchLoop codec groupSize baseChunkId deltaChunks fuel (i + groupSize) s
    else some s

/-- The body of the loop over the groups. -/
def compressGroup (codec : Codec) (groupSize baseChunkId : ℕ) (deltaChunks : List Chunk)
    (s : GroupState) : Option GroupState := do
  let (_, s) ← s.getChunkContent baseChunkId
  if deltaChunks.isEmpty then s.compressBase codec baseChunkId
  else
    let s := if 1 < deltaChunks.length then
        { s with totals := { s.totals with
          groupingNum := s.totals.groupingNum + 1
          groupingBlocks := s.totals.groupingBlocks + deltaChunks.length } }
      else s
    let s ← s.batchLoop codec groupSize baseChunkId deltaChunks deltaChunks.length 0
    if deltaChunks.length % 16 = 0 then s.compressBase codec baseChunkId else some s

/-- The loop over the groups. -/
def groupLoop (codec : Codec) (groupSize : ℕ) : List (ℕ × List Chunk) → GroupState → Option GroupState
  | [], s => some s
  | (baseChunkId, deltaChunks) :: groups, s => do
    let s ← s.compressGroup codec groupSize baseChunkId deltaChunks
    groupLoop codec groupSize groups s

end GroupState

namespace Storage

/-- The loop of `dividByBase` over the records of `meta_`. Each round reads a record, so there are
no more rounds than bytes. -/
def dividLoop (codec : Codec) : ℕ → Groups → Totals → Storage → Option (Groups × Totals × Storage)
  | 0, _, _, _ => none
  | fuel + 1, g, t, s =>
    let (got, metaFile) := fread sizeofChunkMeta s.metaFile
    let s := { s with metaFile }
    match ChunkMeta.ofBytes got with
    | none => some (g, t, s)
    | some m => do
      let dataFile := seekSet m.offset.toNat s.dataFile
      let currentId := m.offset.toNat / 8192 % 2 ^ 32
      let (chunk, dataFile) ← Chunk.fromFileStream m.size.toNat currentId dataFile
      let t := { t with
        singleCompressedSize := t.singleCompressedSize + codec.lz4Frame chunk.buf
        zstdSingleSizeCompressed := t.zstdSingleSizeCompressed + codec.zstd chunk.buf }
      let g := if m.type = BaseChunk then g.touch m.baseChunkId.toNat else g
      if m.type = DeltaChunk then
        let (deltaChunk, dataFile) ←
          Chunk.fromFileStream m.size.toNat currentId (seekSet m.offset.toNat dataFile)
        dividLoop codec fuel (g.pushBack m.baseChunkId.toNat deltaChunk) t { s with dataFile }
      else dividLoop codec fuel g t { s with dataFile }

/-- `dividByBase`. -/
def dividByBase (codec : Codec) (t : Totals) (s : Storage) : Option (Groups × Totals × Storage) := do
  let s := { s with metaFile := seekSet 0 s.metaFile }
  let (g, t, s) ← s.dividLoop codec (s.metaFile.bytes.length + 1) ∅ t
  some (g, t, { s with metaFile := seekEnd s.metaFile, dataFile := seekEnd s.dataFile })

/-- `groupByBase`. -/
def groupByBase (codec : Codec) (groupSize : ℕ) (t : Totals) (s : Storage) : Option GroupState := do
  let (g, totals, storage) ← s.dividByBase codec t
  GroupState.groupLoop codec groupSize g.toList { storage, totals }

end Storage

end ChunkGrouping
