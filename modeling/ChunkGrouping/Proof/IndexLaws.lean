import ChunkGrouping.Model.Index

/-!
# What a working index does

`LawfulIndex`: calls with features of the right shape return, a lookup answers with
ids that were added, what was added is found, and what is found stays found as the
index grows. `FeatureIndex` is a pair as `DeltaCompression()` makes it: a feature
calculator and a new index that takes its features.
-/

namespace ChunkGrouping

/-- **The laws of an index.** `Ready`: its maps are there; `Fits`: the feature has a value for each;
`known`: the ids in it. -/
class LawfulIndex (ι φ : Type) [Index ι φ] where
  Ready (φ) : ι → Prop
  Fits (ι) : φ → Prop
  known (φ) : ι → ℕ → Prop
  get_ok : ∀ {idx : ι} {f : φ}, Ready idx → Fits f → ∃ o, Index.getBaseChunkID f idx = some o ∧
    ∀ id, o = some id → known idx id
  add_ok : ∀ {idx : ι} {f : φ} (id : ℕ), Ready idx → Fits f →
    ∃ idx', Index.addFeature f id idx = some idx' ∧ Ready idx' ∧
      (∀ x, known idx' x → known idx x ∨ x = id) ∧
      (∃ b, Index.getBaseChunkID f idx' = some (some b)) ∧
      ∀ g b, Fits g → Index.getBaseChunkID g idx = some (some b) →
        ∃ b', Index.getBaseChunkID g idx' = some (some b')

/-- A feature calculator and a new index for its features. -/
structure FeatureIndex (ι φ : Type) [Index ι φ] [LawfulIndex ι φ] where
  feature : Chunk → φ
  index : ι
  fits : ∀ c, LawfulIndex.Fits ι (feature c)
  ready : LawfulIndex.Ready φ index
  empty : ∀ id, ¬ LawfulIndex.known φ index id
  content : ∀ c c' : Chunk, c.buf = c'.buf → feature c = feature c'

end ChunkGrouping
