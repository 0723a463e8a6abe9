import ChunkGrouping.Lib.InsertMap
import ChunkGrouping.Model.Feature

/-!
# The indexes (`index/*.h`, `index/*.cpp`)

`Index` is what `AddFile` sees of an index. A call is `none` when it asks the variant
for an alternative it does not hold or reads past the end of a vector. The order in
which a loop meets the entries of an `unordered_map` is a field of the index.
-/

namespace ChunkGrouping

open InsertMap

/-- `class Index`. -/
class Index (ι φ : Type) where
  getBaseChunkID : φ → ι → Option (Option ℕ)
  addFeature : φ → ℕ → ι → Option ι

variable {ρ : Type}

/-! ## `SuperFeatureIndex` -/

/-- The state of a `SuperFeatureIndex`: one map per super-feature, one per ratio. -/
structure SuperFeatureIndex (ρ : Type) where
  index : List (Entries UInt64 ℕ)
  indexFloat : List (Entries ρ ℕ)
  order : IterOrder (ρ × ℕ)

namespace SuperFeatureIndex

/-- `SuperFeatureIndex(super_feature_count, our_feature_count)`. -/
def new (order : IterOrder (ρ × ℕ)) (superFeatureCount ourFeatureCount : ℕ) : SuperFeatureIndex ρ where
  index := List.replicate superFeatureCount []
  indexFloat := List.replicate ourFeatureCount []
  order

/-- The loop over the super-features: the first that is in its map. -/
def superLoop : List (Entries UInt64 ℕ) → List UInt64 → Option (Option ℕ)
  | [], _ => some none
  | _ :: _, [] => none
  | m :: index, w :: superFeature =>
    match get? w m with
    | some id => some (some id)
    | none => superLoop index superFeature

/-- The loop over the ratios: in each map the first that is near. The outer loop has no `break`. -/
def floatLoop [Ratio ρ] (order : IterOrder (ρ × ℕ)) :
    List (Entries ρ ℕ) → List ρ → Option ℕ → Option (Option ℕ)
  | [], _, result => some result
  | [] :: indexFloat, ourFeature, result => floatLoop order indexFloat ourFeature.tail result
  | (_ :: _) :: _, [], _ => none
  | m :: indexFloat, x :: ourFeature, result =>
    let result := match (order.iter m).find? fun e => Ratio.near e.1 x with
      | some e => some e.2
      | none => result
    floatLoop order indexFloat ourFeature result

/-- `GetBaseChunkID`. -/
def getBaseChunkID [Ratio ρ] (feat : Feature ρ) (idx : SuperFeatureIndex ρ) : Option (Option ℕ) :=
  match feat with
  | .one (.words superFeature) => superLoop idx.index superFeature
  | .one (.floats ourFeature) => floatLoop idx.order idx.indexFloat ourFeature none
  | _ => none

/-- `index_[i][feature[i]] = id` for every `i`. -/
def setLoop {K : Type} [BEq K] (id : ℕ) : List (Entries K ℕ) → List K → Option (List (Entries K ℕ))
  | [], _ => some []
  | _ :: _, [] => none
  | m :: index, k :: feature => do
    let index ← setLoop id index feature
    some (set k id m :: index)

/-- `AddFeature`. -/
def addFeature [BEq ρ] (feat : Feature ρ) (id : ℕ) (idx : SuperFeatureIndex ρ) :
    Option (SuperFeatureIndex ρ) :=
  match feat with
  | .one (.words feature) => do
    let index ← setLoop id idx.index feature
    some { idx with index }
  | .one (.floats feature) => do
    let indexFloat ← setLoop id idx.indexFloat feature
    some { idx with indexFloat }
  | _ => none

end SuperFeatureIndex

/-! ## `PalantirIndex` -/

/-- The state of a `PalantirIndex`. -/
structure PalantirIndex (ρ : Type) where
  levels : List (SuperFeatureIndex ρ)

namespace PalantirIndex

/-- `PalantirIndex()`. -/
def new (order : IterOrder (ρ × ℕ)) : PalantirIndex ρ where
  levels := [.new order 3 1, .new order 4 1, .new order 6 1]

/-- The loop over the levels in `GetBaseChunkID`. -/
def lookupLoop [Ratio ρ] : List (SubFeature ρ) → List (SuperFeatureIndex ρ) → Option (Option ℕ)
  | [], _ => some none
  | _ :: _, [] => none
  | f :: features, l :: levels => do
    match ← l.getBaseChunkID (.one f) with
    | some id => some (some id)
    | none => lookupLoop features levels

/-- `GetBaseChunkID`. -/
def getBaseChunkID [Ratio ρ] (feat : Feature ρ) (idx : PalantirIndex ρ) : Option (Option ℕ) :=
  match feat with
  | .levels features =>
    if features.length < 2 then none
    else do
      match ← lookupLoop features.dropLast idx.levels with
      | some id => some (some id)
      | none =>
        let level ← idx.levels[features.length - 2]?
        let last ← features.getLast?
        level.getBaseChunkID (.one last)
  | _ => none

/-- The loop over the levels in `AddFeature`. -/
def addLoop [BEq ρ] (id : ℕ) :
    List (SubFeature ρ) → List (SuperFeatureIndex ρ) → Option (List (SuperFeatureIndex ρ))
  | [], levels => some levels
  | _ :: _, [] => none
  | f :: features, l :: levels => do
    let l ← l.addFeature (.one f) id
    let levels ← addLoop id features levels
    some (l :: levels)

/-- `AddFeature`. -/
def addFeature [BEq ρ] (feat : Feature ρ) (id : ℕ) (idx : PalantirIndex ρ) : Option (PalantirIndex ρ) :=
  match feat with
  | .levels features =>
    if features.length < 2 then none
    else do
      let levels ← addLoop id features.dropLast idx.levels
      let level ← levels[features.length - 2]?
      let last ← features.getLast?
      let level ← level.addFeature (.one last) id
      some { levels := levels.set (features.length - 2) level }
  | _ => none

end PalantirIndex

/-! ## `BestFitIndex` -/

/-- The state of a `BestFitIndex`. -/
structure BestFitIndex where
  index : List (Entries UInt64 (List ℕ))
  order : IterOrder (ℕ × ℕ)

namespace BestFitIndex

/-- `BestFitIndex(feature_count)`. -/
def new (order : IterOrder (ℕ × ℕ)) (featureCount : ℕ) : BestFitIndex where
  index := List.replicate featureCount []
  order

/-- `match_count[id]++` for every id in the list. -/
def countAll (ids : List ℕ) (matchCount : Entries ℕ ℕ) : Entries ℕ ℕ :=
  ids.foldl (fun mc id => alter id 0 (· + 1) mc) matchCount

/-- The loop over the features. -/
def matchLoop : List (Entries UInt64 (List ℕ)) → List UInt64 → Entries ℕ ℕ → Option (Entries ℕ ℕ)
  | [], _, matchCount => some matchCount
  | _ :: _, [], _ => none
  | m :: index, w :: features, matchCount =>
    matchLoop index features (countAll ((get? w m).getD []) matchCount)

/-- The loop over `match_count`: `max_match_id` and `max_match`. -/
def bestLoop (entries : List (ℕ × ℕ)) : ℕ × ℕ :=
  entries.foldl (fun best e => if best.2 < e.2 then e else best) (2 ^ 32 - 1, 0)

/-- `GetBaseChunkID`. -/
def getBaseChunkID {ρ : Type} (feat : Feature ρ) (idx : BestFitIndex) : Option (Option ℕ) :=
  match feat with
  | .words features => do
    let matchCount ← matchLoop idx.index features []
    if matchCount.isEmpty then some none
    else
      let (maxMatchId, maxMatch) := bestLoop (idx.order.iter matchCount)
      if maxMatch < 4 then some none else some (some maxMatchId)
  | _ => none

/-- `index_[i][features[i]].push_back(id)` for every `i`. -/
def pushLoop (id : ℕ) :
    List (Entries UInt64 (List ℕ)) → List UInt64 → Option (List (Entries UInt64 (List ℕ)))
  | [], _ => some []
  | _ :: _, [] => none
  | m :: index, w :: features => do
    let index ← pushLoop id index features
    some (alter w [] (· ++ [id]) m :: index)

/-- `AddFeature`. -/
def addFeature {ρ : Type} (feat : Feature ρ) (id : ℕ) (idx : BestFitIndex) : Option BestFitIndex :=
  match feat with
  | .words features => do
    let index ← pushLoop id idx.index features
    some { idx with index }
  | _ => none

end BestFitIndex

instance [Ratio ρ] [BEq ρ] : Index (SuperFeatureIndex ρ) (Feature ρ) where
  getBaseChunkID := SuperFeatureIndex.getBaseChunkID
  addFeature := SuperFeatureIndex.addFeature

instance [Ratio ρ] [BEq ρ] : Index (PalantirIndex ρ) (Feature ρ) where
  getBaseChunkID := PalantirIndex.getBaseChunkID
  addFeature := PalantirIndex.addFeature

instance : Index BestFitIndex (Feature ρ) where
  getBaseChunkID := BestFitIndex.getBaseChunkID
  addFeature := BestFitIndex.addFeature

end ChunkGrouping
