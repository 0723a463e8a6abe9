import ChunkGrouping.Lib.CheckedLoop
import ChunkGrouping.Model.Feature
import ChunkGrouping.Model.Index
import ChunkGrouping.Model.RabinCDC

/-!
# The feature types (`delta_compression.cpp`, `feature/features.cpp`)

`DeltaCompression()` offers five pairs of a feature calculator and an index. Here the
calculators are with every access they make: none when one is out of range.

`return super_features` makes a `Feature` of a `std::vector<uint64_t>`. Of the variant's
alternatives that is the third, the vector itself, and not the second, which would take
a conversion.
-/

namespace ChunkGrouping

open CheckedLoop LittleEndian

variable {ρ : Type}

/-! ## `FinesseFeature` -/

namespace FinesseFeature

/-- `default_finesse_sf_cnt`. -/
def sfCnt : ℕ := 3

/-- `default_finesse_sf_subf`. -/
def sfSubf : ℕ := 4

/-- The loop over the bytes of sub-chunk `i`, which `content` was advanced to. -/
def digestLoop (content : List UInt8) (subChunkLength i : ℕ) (subFeatures : List UInt64) :
    Option (List UInt64) := do
  let (_, subFeatures) ← forLoop (fun j (s : RabinWindow × List UInt64) => do
    let b ← content[i * subChunkLength + j]?
    let rabinCtx := s.1.rabinAppend b
    let subFeature ← s.2[i]?
    let subFeatures ← write i (max rabinCtx.digest subFeature) s.2
    some (rabinCtx, subFeatures)) subChunkLength (.rabinReset, subFeatures)
  some subFeatures

/-- `std::sort(xs.begin() + i, xs.begin() + i + n)`. -/
def sortRange (i n : ℕ) (xs : List UInt64) : Option (List UInt64) :=
  if i + n ≤ xs.length then
    some (xs.take i ++ ((xs.drop i).take n).mergeSort (· ≤ ·) ++ xs.drop (i + n))
  else none

/-- The digest of a group of `sfSubf` sub-features. -/
def digestGroup (sfSubf : ℕ) (subFeatures : List UInt64) (i : ℕ) : Option UInt64 := do
  let rabinCtx ← forLoop (fun j (rabinCtx : RabinWindow) => do
    let subFeature ← subFeatures[sfSubf * i + j]?
    some ((toLE 8 subFeature.toNat).foldl RabinWindow.rabinAppend rabinCtx)) sfSubf .rabinReset
  some rabinCtx.digest

/-- `operator()` of a `FinesseFeature(sf_cnt, sf_subf)`: none when `sf_subf_ * sf_cnt_`, by which it divides,
is 0 or not an `int`. -/
def runOf (sfCnt sfSubf : ℕ) (chunk : Chunk) : Option (Feature ρ) :=
  if sfSubf * sfCnt = 0 ∨ 2 ^ 31 ≤ sfSubf * sfCnt then none
  else do
    let subChunkLength := chunk.len / (sfSubf * sfCnt)
    let subFeatures ← forLoop (fun i s => digestLoop chunk.buf subChunkLength i s) (sfCnt * sfSubf)
      (List.replicate (sfCnt * sfSubf) 0)
    let subFeatures ← forLoop (fun i s => sortRange (i * sfSubf) sfSubf s) sfCnt subFeatures
    let superFeatures ← forLoop (fun i s => do
      let digest ← digestGroup sfSubf subFeatures i
      write i digest s) sfCnt (List.replicate sfCnt 0)
    some (.words superFeatures)

/-- `FinesseFeature::operator()`, with the default numbers. -/
def run (chunk : Chunk) : Option (Feature ρ) := runOf sfCnt sfSubf chunk

end FinesseFeature

/-! ## `NTransformFeature`, `OdessFeature` -/

/-- `sub_features[j]` for every `j`: at a sampled position each is lowered to its transform of the
fingerprint. -/
def sampleLoop {α : Type} (lower : α → α → α) (transform : UInt32 → UInt32 → α) (featuresNum : ℕ)
    (subFeatures : List α) : Option (List α) :=
  forLoop (fun j s => do
    let m ← Features.M[j]?
    let a ← Features.A[j]?
    let subFeature ← s[j]?
    write j (lower subFeature (transform m a)) s) featuresNum subFeatures

/-- `n` bytes of `hash_buf` from `start` on, hashed. -/
def hashBytes (hashBuf : List UInt8) (start n : ℕ) : Option UInt64 :=
  forLoop (fun j hash => do
    let b ← hashBuf[start + j]?
    some (gearStep hash b)) n 0

/-- `super_features[i]` for every `i`: the hash of `n` bytes, from `skip` on in its group. -/
def groupLoop (hashBuf : List UInt8) (sfCnt width skip : ℕ) : Option (List UInt64) :=
  forLoop (fun i s => do
    let hash ← hashBytes hashBuf (i * width + skip) (width - skip)
    write i hash s) sfCnt (List.replicate sfCnt 0)

namespace OdessFeature

/-- `default_odess_sf_cnt`. -/
def sfCnt : ℕ := 3

/-- `default_odess_sf_subf`. -/
def sfSubf : ℕ := 4

/-- `const uint32_t transform = M[j] * finger_print + A[j]`. -/
def transform (fingerPrint : UInt64) (m a : UInt32) : UInt32 := (m.toUInt64 * fingerPrint + a.toUInt64).toUInt32

/-- A sub-feature at a sampled position. A value of 0 counts as not yet set. -/
def lower (subFeature transform : UInt32) : UInt32 :=
  if transform ≤ subFeature ∨ subFeature = 0 then transform else subFeature

/-- The body `NTransformFeature` and `OdessFeature` share, `pick` the positions sampled. -/
def sampled (pick : UInt64 → Bool) (chunk : Chunk) : Option (Feature ρ) := do
  let (_, subFeatures) ← chunk.buf.foldlM (fun (s : UInt64 × List UInt32) b => do
    let fingerPrint := gearStep s.1 b
    if pick fingerPrint then
      let subFeatures ← sampleLoop lower (transform fingerPrint) (sfCnt * sfSubf) s.2
      some (fingerPrint, subFeatures)
    else some (fingerPrint, s.2)) (0, List.replicate (sfCnt * sfSubf) 0)
  let superFeatures ← groupLoop (subFeatures.flatMap fun w => toLE 4 w.toNat) sfCnt (sfSubf * 4) 0
  some (.words superFeatures)

/-- The loop over the sub-features, all positions in range. -/
def sample (fingerPrint : UInt64) (subFeatures : List UInt32) : List UInt32 :=
  List.zipWith lower subFeatures (List.zipWith (transform fingerPrint) Features.M Features.A)

/-- The loop over the bytes, all positions in range. -/
def loop (pick : UInt64 → Bool) : List UInt8 → UInt64 → List UInt32 → List UInt32
  | [], _, subFeatures => subFeatures
  | b :: bytes, fingerPrint, subFeatures =>
    let fingerPrint := gearStep fingerPrint b
    if pick fingerPrint then loop pick bytes fingerPrint (sample fingerPrint subFeatures)
    else loop pick bytes fingerPrint subFeatures

/-- The sub-features of a chunk. -/
def subFeatures (pick : UInt64 → Bool) (chunk : Chunk) : List UInt32 := loop pick chunk.buf 0 (List.replicate 12 0)

/-- The super-features, all positions in range. -/
def superFeatures (subFeatures : List UInt32) : List UInt64 :=
  let hashBuf := subFeatures.flatMap fun w => toLE 4 w.toNat
  (List.range sfCnt).map fun i => ((hashBuf.drop (i * (sfSubf * 4))).take (sfSubf * 4)).foldl gearStep 0

/-- `OdessFeature::operator()`. -/
def run (chunk : Chunk) : Option (Feature ρ) :=
  sampled (fun f => f &&& defaultOdessMask.toUInt64 == 0) chunk

end OdessFeature

/-- `NTransformFeature::operator()`. -/
def NTransformFeature.run (chunk : Chunk) : Option (Feature ρ) := OdessFeature.sampled (fun _ => true) chunk

/-! ## `OdessSubfeatures`, `PalantirFeature` -/

/-- `OdessSubfeatures::operator()`. -/
def OdessSubfeatures.run (chunk : Chunk) : Option (Feature ρ) := do
  let (_, subFeatures) ← chunk.buf.foldlM (fun (s : UInt32 × List UInt64) b => do
    let fingerPrint := step s.1 b
    if fingerPrint &&& defaultOdessMask = 0 then
      let subFeatures ← sampleLoop lower (transform fingerPrint) 12 s.2
      some (fingerPrint, subFeatures)
    else some (fingerPrint, s.2)) (0, List.replicate 12 0)
  some (.words subFeatures)

/-- `PalantirFeature::operator()`. -/
def PalantirFeature.run [Ratio ρ] (chunk : Chunk) : Option (Feature ρ) := do
  match ← (OdessSubfeatures.run chunk : Option (Feature ρ)) with
  | .words subFeatures =>
    let hashBuf := subFeatures.flatMap fun w => toLE 8 w.toNat
    let a ← groupLoop hashBuf 3 (4 * 8) 4
    let b ← groupLoop hashBuf 4 (3 * 8) 4
    let c ← groupLoop hashBuf 6 (2 * 8) 4
    some (.levels [.words a, .words b, .words c, .floats [zeroCal chunk.buf]])
  | _ => none

/-! ## The pairs -/

/-- The keys of `feature_index_map`. -/
inductive FeatureType where
  | finesse
  | odess
  | nTransform
  | palantir
  | bestfit
deriving DecidableEq, Repr

/-- The feature calculator of a pair. -/
def FeatureType.calculate [Ratio ρ] : FeatureType → Chunk → Option (Feature ρ)
  | finesse => FinesseFeature.run
  | odess => OdessFeature.run
  | nTransform => NTransformFeature.run
  | palantir => PalantirFeature.run
  | bestfit => OdessSubfeatures.run

/-- The loop feature, `GetBaseChunkID`, `AddFeature` on a miss, over chunks or whatever has a feature and an id: what
each is classified as. -/
def pairLoop {α ι φ : Type} [Index ι φ] (calculate : α → Option φ) (id : α → ℕ) :
    List α → ι → Option (List (Option ℕ))
  | [], _ => some []
  | chunk :: chunks, index => do
    let feature ← calculate chunk
    match ← Index.getBaseChunkID feature index with
    | some baseChunkId => do
      let ids ← pairLoop calculate id chunks index
      some (some baseChunkId :: ids)
    | none => do
      let index ← Index.addFeature feature (id chunk) index
      let ids ← pairLoop calculate id chunks index
      some (none :: ids)

/-- A pair, with a new index, on a sequence of chunks. -/
def FeatureType.classify [Ratio ρ] [BEq ρ] (order : InsertMap.IterOrder (ρ × ℕ))
    (countOrder : InsertMap.IterOrder (ℕ × ℕ)) (t : FeatureType) (chunks : List Chunk) :
    Option (List (Option ℕ)) :=
  match t with
  | finesse | odess | nTransform =>
    pairLoop (t.calculate (ρ := ρ)) Chunk.id chunks (SuperFeatureIndex.new order 3 1)
  | palantir => pairLoop (t.calculate (ρ := ρ)) Chunk.id chunks (PalantirIndex.new order)
  | bestfit => pairLoop (t.calculate (ρ := ρ)) Chunk.id chunks (BestFitIndex.new countOrder 12)

end ChunkGrouping
