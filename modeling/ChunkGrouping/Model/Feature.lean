import ChunkGrouping.Lib.LittleEndian
import ChunkGrouping.Model.Chunk
import ChunkGrouping.Model.Gear

/-!
# Features (`feature/features.h`, `feature/features.cpp`)

`Feature` is a variant of three alternatives; an index that asks for another one than
it gets throws. Floats are a parameter: `Ratio` is what the code does with them.

* `OdessSubfeatures`: 12 sub-features, minima over the sampled positions of a chunk.
* `PalantirFeature`: three levels of super-features, and the share of zero bytes.
-/

namespace ChunkGrouping

open LittleEndian

/-- `std::variant<std::vector<uint64_t>, std::vector<float>>`. -/
inductive SubFeature (ρ : Type) where
  | words (ws : List UInt64)
  | floats (fs : List ρ)
deriving DecidableEq, Repr

/-- `Feature`. -/
inductive Feature (ρ : Type) where
  | levels (fs : List (SubFeature ρ))
  | one (f : SubFeature ρ)
  | words (ws : List UInt64)
deriving DecidableEq, Repr

/-- A variant starts as its first alternative. -/
instance (ρ : Type) : Inhabited (Feature ρ) := ⟨.levels []⟩

/-- The floats: quotients of counts, and `std::abs(a - b) < threshold` with threshold 0.01. -/
class Ratio (ρ : Type) where
  quotient : ℕ → ℕ → ρ
  near : ρ → ρ → Bool

/-- The floats as exact numbers. -/
instance : Ratio ℚ where
  quotient a b := (a : ℚ) / b
  near a b := |a - b| < 1 / 100

namespace Features

/-- `M`. -/
def M : List UInt32 := [
  0x5b49898a, 0xe4f94e27, 0x95f658b2, 0x8f9c99fc, 0xeba8d4d8, 0xba2c8e92,
  0xa868aeb4, 0xd767df82, 0x843606a4, 0xc1e70129, 0x32d9d1b0, 0xeb91e53c]

/-- `A`. -/
def A : List UInt32 := [
  0xff4be8c, 0x6f485986, 0x12843ff, 0x5b47dc4d, 0x7faa9b8a, 0xd547b8ba,
  0xf9979921, 0x4f5400da, 0x725f79a9, 0x3c9321ac, 0x32716d, 0x3f5adf5d]

end Features

/-- `default_odess_mask`. -/
def defaultOdessMask : UInt32 := 2 ^ 7 - 1

namespace OdessSubfeatures

/-- `finger_print = (finger_print << 1) + GEAR_TABLE[byte]` for a `uint32_t`. -/
def step (fingerPrint : UInt32) (byte : UInt8) : UInt32 :=
  ((fingerPrint <<< 1).toUInt64 + gear byte).toUInt32

/-- `M[j] * finger_print + A[j]`. -/
def transform (fingerPrint m a : UInt32) : UInt64 := (m * fingerPrint + a).toUInt64

/-- A sub-feature at a sampled position. A value of 0 counts as not yet set. -/
def lower (subFeature transform : UInt64) : UInt64 :=
  if transform ≤ subFeature ∨ subFeature = 0 then transform else subFeature

/-- The loop over the 12 sub-features. -/
def sample (fingerPrint : UInt32) (subFeatures : List UInt64) : List UInt64 :=
  List.zipWith lower subFeatures (List.zipWith (transform fingerPrint) Features.M Features.A)

/-- The loop over the bytes. -/
def loop : List UInt8 → UInt32 → List UInt64 → List UInt64
  | [], _, subFeatures => subFeatures
  | b :: bytes, fingerPrint, subFeatures =>
    let fingerPrint := step fingerPrint b
    if fingerPrint &&& defaultOdessMask = 0 then loop bytes fingerPrint (sample fingerPrint subFeatures)
    else loop bytes fingerPrint subFeatures

/-- The sub-features of a chunk. -/
def subFeatures (chunk : Chunk) : List UInt64 := loop chunk.buf 0 (List.replicate 12 0)

/-- `OdessSubfeatures::operator()`. -/
def call {ρ : Type} (chunk : Chunk) : Feature ρ := .words (subFeatures chunk)

end OdessSubfeatures

namespace PalantirFeature

/-- `hash_value` of a group: the bytes of its sub-features from the fifth on. -/
def hashValue (groupBytes : List UInt8) : UInt64 := (groupBytes.drop 4).foldl gearStep 0

/-- `group(sf_cnt, sf_subf)`. -/
def group (subFeatures : List UInt64) (sfCnt sfSubf : ℕ) : List UInt64 :=
  let hashBuf := subFeatures.flatMap fun w => toLE 8 w.toNat
  (List.range sfCnt).map fun i => hashValue ((hashBuf.drop (i * (sfSubf * 8))).take (sfSubf * 8))

/-- `cal(ZERO_CAL, content)` (`storage/our_feature.cpp`). -/
def zeroCal {ρ : Type} [Ratio ρ] (content : List UInt8) : ρ :=
  Ratio.quotient (content.count 0) content.length

/-- `PalantirFeature::operator()`. -/
def call {ρ : Type} [Ratio ρ] (chunk : Chunk) : Feature ρ :=
  let sub := OdessSubfeatures.subFeatures chunk
  .levels [.words (group sub 3 4), .words (group sub 4 3), .words (group sub 6 2),
    .floats [zeroCal chunk.buf]]

end PalantirFeature

/-- The levels of `PalantirFeature`: the super-features, and the sub-features of each. -/
def levelShapes : List (ℕ × ℕ) := [(3, 4), (4, 3), (6, 2)]

end ChunkGrouping
