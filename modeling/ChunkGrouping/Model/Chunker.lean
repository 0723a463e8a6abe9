import ChunkGrouping.Model.Chunk

/-!
# The chunker interface and the drain loop

`Chunker` (`chunk/chunker.h`) is what `AddFile` sees of a chunker. `drain` is its
loop `while (true) { chunk = GetNextChunk(); if (nullptr == chunk) break; ... }`,
collecting the chunks. Every chunk takes at least one byte off
`remaining_file_len`, so `remaining_file_len + 1` rounds are enough.

A step is `none` when it reads memory outside the mapping; a drain is also `none`
when it does not end.
-/

namespace ChunkGrouping

/-- `class Chunker`, with the two fields of its implementations that the drain depends on. -/
class Chunker (κ : Type) where
  reinitWithFile : FileContent → κ → Bool × κ
  getNextChunk : κ → Option (Option Chunk × κ)
  remainingFileLen : κ → ℕ
  nextChunkId : κ → ℕ

variable {κ : Type} [Chunker κ]

/-- `fuel` rounds of `GetNextChunk`, up to the first `nullptr`. -/
def drainLoop : ℕ → κ → Option (List Chunk × κ)
  | 0, _ => none
  | fuel + 1, s => do
    let (chunk, s) ← Chunker.getNextChunk s
    match chunk with
    | none => some ([], s)
    | some chunk =>
      let (chunks, s) ← drainLoop fuel s
      some (chunk :: chunks, s)

/-- `GetNextChunk` until it returns `nullptr`. -/
def drain (s : κ) : Option (List Chunk × κ) := drainLoop (Chunker.remainingFileLen s + 1) s

/-- `ReinitWithFile`, its result ignored, then the drain. -/
def drainFile (content : FileContent) (s : κ) : Option (List Chunk × κ) :=
  drain (Chunker.reinitWithFile content s).2

/-- The chunks of each file of a sequence, as successive `AddFile` calls drain them. -/
def drainFiles : List FileContent → κ → Option (List (List Chunk) × κ)
  | [], s => some ([], s)
  | content :: contents, s => do
    let (chunks, s) ← drainFile content s
    let (rest, s) ← drainFiles contents s
    some (chunks :: rest, s)

end ChunkGrouping
