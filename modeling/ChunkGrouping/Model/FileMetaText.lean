import ChunkGrouping.Lib.TextStream

/-!
# The file of `FileMeta` records (`storage/file_meta.h`)

One line a file: its name, its first and its last chunk id. The writer puts a blank
between them, both readers extract them as words.

Strings are bytes. The ids of a `FileMeta` are not initialised: in a record read, none
stands for whatever was in memory.
-/

namespace ChunkGrouping

open TextStream

/-- `struct FileMeta`, with ids of type `α`. -/
structure MetaLine (α : Type) where
  fileName : List UInt8
  startChunkId : α
  endChunkId : α
deriving DecidableEq, Repr

/-- The record with all its members assigned. -/
def MetaLine.assigned (m : MetaLine UInt32) : MetaLine (Option UInt32) :=
  ⟨m.fileName, some m.startChunkId, some m.endChunkId⟩

/-- `FileMeta meta;`. -/
def MetaLine.fresh : MetaLine (Option UInt32) := ⟨[], none, none⟩

/-- `FileMetaWriter::Write`, `out_` the bytes written so far. -/
def FileMetaWriter.write (m : MetaLine UInt32) (out : List UInt8) : List UInt8 :=
  out ++ m.fileName ++ [32] ++ decimal m.startChunkId.toNat ++ [32] ++ decimal m.endChunkId.toNat ++ [10]

/-- The file after `Write` of each record. -/
def FileMetaWriter.writeAll (ms : List (MetaLine UInt32)) : List UInt8 :=
  ms.foldl (fun out m => FileMetaWriter.write m out) []

/-- `iss >> meta.file_name >> meta.start_chunk_id >> meta.end_chunk_id`. -/
def MetaLine.extract (line : List UInt8) (m : MetaLine (Option UInt32)) :
    MetaLine (Option UInt32) × IStringStream :=
  let (fileName, iss) := extractString { rest := line }
  let (startChunkId, iss) := extractUnsigned 32 iss
  let (endChunkId, iss) := extractUnsigned 32 iss
  ({ fileName := fileName.getD m.fileName
     startChunkId := (startChunkId.map UInt32.ofNat).or m.startChunkId
     endChunkId := (endChunkId.map UInt32.ofNat).or m.endChunkId }, iss)

/-- `FileMetaReader::Next`, `in_` what is left of the file. -/
def FileMetaReader.next (inFile : List UInt8) : Option (MetaLine (Option UInt32)) × List UInt8 :=
  match getline inFile with
  | none => (none, inFile)
  | some (line, inFile) => (some (MetaLine.fresh.extract line).1, inFile)

/-- `Next` until it returns `nullopt`. Each call reads a byte, so there are no more calls than bytes. -/
def FileMetaReader.readLoop : ℕ → List UInt8 → Option (List (MetaLine (Option UInt32)))
  | 0, _ => none
  | fuel + 1, inFile =>
    match FileMetaReader.next inFile with
    | (none, _) => some []
    | (some m, inFile) => do
      let ms ← FileMetaReader.readLoop fuel inFile
      some (m :: ms)

/-- All records of a file. -/
def FileMetaReader.readAll (inFile : List UInt8) : Option (List (MetaLine (Option UInt32))) :=
  FileMetaReader.readLoop (inFile.length + 1) inFile

/-- The loop of `GetFileMetaByName`, `m` its `meta`. -/
def getByNameLoop (fileName : List UInt8) :
    ℕ → MetaLine (Option UInt32) → List UInt8 → Option (Option (MetaLine (Option UInt32)))
  | 0, _, _ => none
  | fuel + 1, m, inFile =>
    match getline inFile with
    | none => some none
    | some (line, inFile) =>
      let (m, iss) := m.extract line
      if iss.fail = false ∧ m.fileName = fileName then some (some m)
      else getByNameLoop fileName fuel m inFile

/-- `GetFileMetaByName` on the bytes of a file. -/
def getFileMetaByName (inFile : List UInt8) (fileName : List UInt8) :
    Option (Option (MetaLine (Option UInt32))) :=
  getByNameLoop fileName (inFile.length + 1) .fresh inFile

end ChunkGrouping
