import ChunkGrouping.Model.Chunker
import ChunkGrouping.Model.Gear

/-!
# `FastCDC` (`chunk/fast_cdc.cpp`)

The read pointer is an offset into the mapping; reading outside the mapping is
`none`, and so is counting `chunk_size` beyond `INT_MAX`. The two loops of
`GetNextChunk` are written over the number of rounds their bounds leave, with the
loop variables in a `FastScan`.
-/

namespace ChunkGrouping

/-- The state of a `FastCDC`. The chunk sizes are `int`s. -/
structure FastCDC where
  minChunkSize : ℕ
  maxChunkSize : ℕ
  mask : UInt64
  file : MappedFile := {}
  fileReadPtr : ℕ := 0
  remainingFileLen : ℕ := 0
  nextChunkId : ℕ := 0

/-- The loop variables of `GetNextChunk`. -/
structure FastScan where
  chunkSize : ℕ
  fileReadPtr : ℕ
  fingerPrint : UInt64

namespace FastCDC

/-- `ReinitWithFile`. -/
def reinitWithFile (content : FileContent) (s : FastCDC) : Bool × FastCDC :=
  let s := { s with file := MappedFile.open content }
  if !s.file.mapSuccess then (false, s)
  else (true, { s with fileReadPtr := 0, remainingFileLen := s.file.len })

/-- `chunk_size++`, an `int`: undefined at `INT_MAX`. -/
def nextSize (chunkSize : ℕ) : Option ℕ :=
  if chunkSize + 1 < 2 ^ 31 then some (chunkSize + 1) else none

theorem nextSize_of_lt {n : ℕ} (h : n + 1 < 2 ^ 31) : nextSize n = some (n + 1) := if_pos h

theorem nextSize_eq_some {n m : ℕ} (h : nextSize n = some m) : m = n + 1 := by
  unfold nextSize at h
  split at h
  · exact (Option.some.inj h).symm
  · simp at h

/-- `for (; chunk_size <= min_chunk_size; chunk_size++)`, `k` rounds. -/
def minLoop (mem : List UInt8) : ℕ → FastScan → Option FastScan
  | 0, v => some v
  | k + 1, v => do
    let byte ← mem[v.fileReadPtr]?
    let chunkSize ← nextSize v.chunkSize
    minLoop mem k ⟨chunkSize, v.fileReadPtr + 1, gearStep v.fingerPrint byte⟩

/-- `for (; chunk_size <= min(remaining_file_len, max_chunk_size); chunk_size++)`, `k` rounds.
The flag tells the `return` inside the loop from running off its end. -/
def cutLoop (mem : List UInt8) (mask : UInt64) : ℕ → FastScan → Option (Bool × FastScan)
  | 0, v => some (false, v)
  | k + 1, v => do
    let byte ← mem[v.fileReadPtr]?
    let v := { v with fileReadPtr := v.fileReadPtr + 1, fingerPrint := gearStep v.fingerPrint byte }
    if v.fingerPrint &&& mask = 0 then some (true, v)
    else do
      let chunkSize ← nextSize v.chunkSize
      cutLoop mem mask k { v with chunkSize }

/-- `GetNextChunk`. -/
def getNextChunk (s : FastCDC) : Option (Option Chunk × FastCDC) :=
  if s.remainingFileLen = 0 then some (none, s)
  else if s.remainingFileLen ≤ s.minChunkSize then do
    -- the read pointer stays where it is
    let chunk ← Chunk.fromMemoryRef s.file.mapped s.fileReadPtr s.remainingFileLen s.nextChunkId
    some (some chunk, { s with remainingFileLen := 0, nextChunkId := nextId s.nextChunkId })
  else do
    let v ← minLoop s.file.mapped s.minChunkSize ⟨1, s.fileReadPtr, 0⟩
    let bound := min s.remainingFileLen s.maxChunkSize
    let (found, v) ← cutLoop s.file.mapped s.mask (bound + 1 - v.chunkSize) v
    let chunkSize := if found then v.chunkSize else v.chunkSize - 1
    let chunk ← Chunk.fromMemoryRef s.file.mapped s.fileReadPtr chunkSize s.nextChunkId
    some (some chunk, { s with
      fileReadPtr := v.fileReadPtr
      remainingFileLen := s.remainingFileLen - chunkSize
      nextChunkId := nextId s.nextChunkId })

/-- `FastCDC(min_ck_sz, max_ck_sz, stop_mask)`. -/
def new (minCkSz maxCkSz : ℕ) (stopMask : UInt64) : FastCDC :=
  { minChunkSize := minCkSz, maxChunkSize := maxCkSz, mask := stopMask }

instance : Chunker FastCDC where
  reinitWithFile := reinitWithFile
  getNextChunk := getNextChunk
  remainingFileLen := remainingFileLen
  nextChunkId := nextChunkId

end FastCDC

end ChunkGrouping
