import ChunkGrouping.Lib.LittleEndian
import ChunkGrouping.Model.Index

/-!
# The file of a `SuperFeatureIndex` (`index/super_feature_index.cpp`)

`DumpToFile` writes the number of maps, and for each its size and its entries, in the
order in which a loop meets them. `RecoverFromFile` inserts them into an index.

A read past the end of the file fills what there is and leaves the rest 0. The counter
`j` of the entries is an `int`: counting on from `2^31 - 1` is `none`.
-/

namespace ChunkGrouping

open InsertMap LittleEndian

variable {ρ : Type}

namespace SuperFeatureIndex

/-- An entry: `write_uint64(k); write_uint32(v)`. -/
def entryBytes (e : UInt64 × ℕ) : List UInt8 := toLE 8 e.1.toNat ++ toLE 4 e.2

/-- A map: its size and its entries. -/
def mapBytes (order : IterOrder (UInt64 × ℕ)) (m : Entries UInt64 ℕ) : List UInt8 :=
  toLE 8 m.length ++ (order.iter m).flatMap entryBytes

/-- `DumpToFile`: the bytes of the file. -/
def dumpToFile (order : IterOrder (UInt64 × ℕ)) (idx : SuperFeatureIndex ρ) : List UInt8 :=
  toLE 4 idx.index.length ++ idx.index.flatMap (mapBytes order)

/-- `inFile.read` of `w` bytes into a number that was 0. -/
def readLE (w : ℕ) (inFile : List UInt8) : ℕ × List UInt8 := (ofLE (inFile.take w), inFile.drop w)

/-- The loop over `j`, with `rest` rounds to go. -/
def entryLoop : ℕ → ℕ → Entries UInt64 ℕ → List UInt8 → Option (Entries UInt64 ℕ × List UInt8)
  | 0, _, m, inFile => some (m, inFile)
  | rest + 1, j, m, inFile =>
    let (feature, inFile) := readLE 8 inFile
    let (chunkId, inFile) := readLE 4 inFile
    if j + 1 = 2 ^ 31 then none
    else entryLoop rest (j + 1) (set (.ofNat feature) chunkId m) inFile

/-- The loop over the maps. -/
def recoverLoop : List (Entries UInt64 ℕ) → List UInt8 → Option (List (Entries UInt64 ℕ))
  | [], _ => some []
  | m :: index, inFile => do
    let (mapSize, inFile) := readLE 8 inFile
    let (m, inFile) ← entryLoop mapSize 0 m inFile
    let index ← recoverLoop index inFile
    some (m :: index)

/-- How `RecoverFromFile` ends, with the index it leaves: in a `LOG(FATAL)`, in the overflow of `j`, or by
`return true`. -/
inductive Recovery (ρ : Type) where
  | fatal (idx : SuperFeatureIndex ρ)
  | overflow
  | returned (idx : SuperFeatureIndex ρ)

/-- `RecoverFromFile`, to whatever end. -/
def recoverOutcome (inFile : List UInt8) (idx : SuperFeatureIndex ρ) : Recovery ρ :=
  let (superFeatureCount, inFile) := readLE 4 inFile
  if idx.index.length ≠ superFeatureCount then .fatal idx
  else match recoverLoop idx.index inFile with
    | none => .overflow
    | some index => .returned { idx with index }

/-- `RecoverFromFile`, when it returns. -/
def recoverFromFile (inFile : List UInt8) (idx : SuperFeatureIndex ρ) : Option (SuperFeatureIndex ρ) :=
  match recoverOutcome inFile idx with
  | .returned idx => some idx
  | .fatal _ | .overflow => none

/-- A sequence of `AddFeature` calls. -/
def addAll [BEq ρ] (adds : List (Feature ρ × UInt32)) (idx : SuperFeatureIndex ρ) :
    Option (SuperFeatureIndex ρ) :=
  adds.foldlM (fun idx a => addFeature a.1 a.2.toNat idx) idx

end SuperFeatureIndex

end ChunkGrouping
