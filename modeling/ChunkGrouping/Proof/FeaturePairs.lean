import Mathlib.Data.List.GetD
import ChunkGrouping.Model.FeatureCalculators
import ChunkGrouping.Proof.BestFitIndex
import ChunkGrouping.Proof.Finesse
import ChunkGrouping.Proof.PalantirIndex

/-!
# Which feature types run

Every calculator stays in range. The three that are paired with `SuperFeatureIndex`
return an alternative of `Feature` that it does not ask for.

* `FinesseFeature.run_ok`, `OdessFeature.sampled_eq`: their accesses are in range.
* `OdessSubfeatures.run_eq`, `PalantirFeature.run_eq`: the calculators of the working
  pairs, access by access, compute what they were modelled as.
* `feature_pairs_iff`: `palantir` and `bestfit` run.
-/

namespace ChunkGrouping

open Batching CheckedLoop LittleEndian InsertMap

variable {ρ : Type}

/-- **`FinesseFeature`** reads and writes in range. -/
theorem FinesseFeature.run_ok (chunk : Chunk) : ∃ ws, (run chunk : Option (Feature ρ)) = some (.words ws) :=
  ⟨_, runOf_eq (by decide) chunk⟩

/-! ## The calculators that sample -/

/-- The loop over the sub-features, in range. -/
theorem sampleLoop_eq {α : Type} (lower : α → α → α) (transform : UInt32 → UInt32 → α) {s : List α}
    (hs : s.length = 12) :
    sampleLoop lower transform 12 s = some (List.zipWith lower s (List.zipWith transform Features.M Features.A)) := by
  unfold sampleLoop
  rw [updateLoop_eq (g := fun j x => lower x (transform (Features.M.getD j 0) (Features.A.getD j 0))) hs]
  · rw [Option.some.injEq]
    refine List.ext_getElem (by simp [hs, Features.M, Features.A]) fun j h₁ h₂ => ?_
    have hj : j < 12 := by simpa [hs] using h₁
    have hM : j < Features.M.length := hj
    have hA : j < Features.A.length := hj
    simp only [List.getElem_mapIdx, List.getElem_zipWith, List.getD_eq_getElem _ _ hM,
      List.getD_eq_getElem _ _ hA]
  · intro j hj ys x hx
    have hM : j < Features.M.length := hj
    have hA : j < Features.A.length := hj
    rw [List.getElem?_eq_getElem hM, List.getElem?_eq_getElem hA, hx, List.getD_eq_getElem _ _ hM,
      List.getD_eq_getElem _ _ hA]
    rfl

/-- The loop over the groups, in range. -/
theorem groupLoop_eq (hashBuf : List UInt8) (sfCnt width skip : ℕ) (hskip : skip ≤ width)
    (hlen : hashBuf.length = sfCnt * width) :
    groupLoop hashBuf sfCnt width skip = some ((List.range sfCnt).map fun i =>
      ((((hashBuf.drop (i * width)).take width).drop skip).foldl gearStep 0)) := by
  unfold groupLoop
  refine fillLoop_eq 0 fun i hi ys => ?_
  have hle : i * width + skip + (width - skip) ≤ hashBuf.length := by
    rw [hlen]
    calc i * width + skip + (width - skip) = (i + 1) * width := by rw [Nat.succ_mul]; omega
      _ ≤ sfCnt * width := Nat.mul_le_mul_right _ hi
  unfold hashBytes
  rw [readLoop_eq gearStep hle, List.drop_take, List.drop_drop]
  rfl

theorem OdessFeature.length_sample (fingerPrint : UInt64) {s : List UInt32} (hs : s.length = 12) :
    (sample fingerPrint s).length = 12 := by
  simp [sample, hs, Features.M, Features.A]

theorem OdessFeature.length_loop (pick : UInt64 → Bool) (bytes : List UInt8) : ∀ (f : UInt64) {s : List UInt32},
    s.length = 12 → (loop pick bytes f s).length = 12 := by
  induction bytes with
  | nil => intro f s hs; exact hs
  | cons b bytes ih =>
    intro f s hs
    rw [loop]
    split
    · exact ih _ (length_sample _ hs)
    · exact ih _ hs

/-- **`NTransformFeature` and `OdessFeature`**, access by access: the super-features of the sub-features. -/
theorem OdessFeature.sampled_eq (pick : UInt64 → Bool) (chunk : Chunk) :
    (sampled pick chunk : Option (Feature ρ)) = some (.words (superFeatures (subFeatures pick chunk))) := by
  have hfold : ∀ (bytes : List UInt8) (f : UInt64) (s : List UInt32), s.length = 12 →
      ∃ f', bytes.foldlM (fun (s : UInt64 × List UInt32) b => do
        let fingerPrint := gearStep s.1 b
        if pick fingerPrint then
          let subFeatures ← sampleLoop lower (transform fingerPrint) (sfCnt * sfSubf) s.2
          some (fingerPrint, subFeatures)
        else some (fingerPrint, s.2)) (f, s) = some (f', loop pick bytes f s) := by
    intro bytes
    induction bytes with
    | nil => intro f s _; exact ⟨f, rfl⟩
    | cons b bytes ih =>
      intro f s hs
      rw [List.foldlM_cons, loop]
      by_cases hp : pick (gearStep f b) = true
      · have hloop : sampleLoop lower (transform (gearStep f b)) (sfCnt * sfSubf) s = some (sample (gearStep f b) s) :=
          sampleLoop_eq lower (transform (gearStep f b)) hs
        simp only [if_pos hp, hloop]
        exact ih _ _ (length_sample _ hs)
      · simp only [if_neg hp]
        exact ih _ _ hs
  obtain ⟨f, hf⟩ := hfold chunk.buf 0 (List.replicate 12 0) List.length_replicate
  have hl : (subFeatures pick chunk).length = 12 := length_loop pick chunk.buf 0 List.length_replicate
  have hgroup := groupLoop_eq ((subFeatures pick chunk).flatMap fun w => toLE 4 w.toNat) sfCnt (sfSubf * 4) 0 (by omega)
    (by rw [length_flatMap fun w _ => length_toLE 4 w.toNat, hl]; rfl)
  unfold sampled
  simp only [Option.bind_eq_bind] at hf ⊢
  rw [show (List.replicate (sfCnt * sfSubf) 0 : List UInt32) = List.replicate 12 0 from rfl, hf, Option.bind_some]
  dsimp only
  rw [show loop pick chunk.buf 0 (List.replicate 12 0) = subFeatures pick chunk from rfl, hgroup]
  rfl

/-- **`OdessSubfeatures`**, access by access, is `call`. -/
theorem OdessSubfeatures.run_eq (chunk : Chunk) : (run chunk : Option (Feature ρ)) = some (call chunk) := by
  have hfold : ∀ (bytes : List UInt8) (f : UInt32) (s : List UInt64), s.length = 12 →
      ∃ f', bytes.foldlM (fun (s : UInt32 × List UInt64) b => do
        let fingerPrint := step s.1 b
        if fingerPrint &&& defaultOdessMask = 0 then
          let subFeatures ← sampleLoop lower (transform fingerPrint) 12 s.2
          some (fingerPrint, subFeatures)
        else some (fingerPrint, s.2)) (f, s) = some (f', loop bytes f s) := by
    intro bytes
    induction bytes with
    | nil => intro f s _; exact ⟨f, rfl⟩
    | cons b bytes ih =>
      intro f s hs
      rw [List.foldlM_cons, loop]
      by_cases hp : step f b &&& defaultOdessMask = 0
      · simp only [if_pos hp, sampleLoop_eq lower (transform (step f b)) hs]
        exact ih _ _ (by simp [hs, Features.M, Features.A])
      · simp only [if_neg hp]
        exact ih _ _ hs
  obtain ⟨f, hf⟩ := hfold chunk.buf 0 (List.replicate 12 0) List.length_replicate
  unfold run
  rw [hf]
  rfl

theorem OdessSubfeatures.length_subFeatures (chunk : Chunk) : (subFeatures chunk).length = 12 :=
  length_loop chunk.buf _ _ List.length_replicate

/-- **`PalantirFeature`**, access by access, is `call`. -/
theorem PalantirFeature.run_eq [Ratio ρ] (chunk : Chunk) :
    (run chunk : Option (Feature ρ)) = some (call chunk) := by
  have hbuf : ((OdessSubfeatures.subFeatures chunk).flatMap fun w => toLE 8 w.toNat).length = 96 := by
    rw [length_flatMap fun w _ => length_toLE 8 w.toNat, OdessSubfeatures.length_subFeatures]
  unfold run
  rw [OdessSubfeatures.run_eq]
  simp only [Option.bind_eq_bind, Option.bind_some, OdessSubfeatures.call]
  rw [groupLoop_eq _ 3 _ _ (by omega) (hbuf.trans (by omega)), groupLoop_eq _ 4 _ _ (by omega) (hbuf.trans (by omega)),
    groupLoop_eq _ 6 _ _ (by omega) (hbuf.trans (by omega))]
  rfl

/-! ## The pairs -/

/-- **A lawful pair runs**: every chunk is classified. -/
theorem pairLoop_ok {ι φ : Type} [Index ι φ] [LawfulIndex ι φ] {calculate : Chunk → Option φ}
    {feature : Chunk → φ} (hcalc : ∀ c, calculate c = some (feature c))
    (hfits : ∀ c, LawfulIndex.Fits ι (feature c)) :
    ∀ (cs : List Chunk) (idx : ι), LawfulIndex.Ready φ idx →
      ∃ ids, pairLoop calculate Chunk.id cs idx = some ids ∧ ids.length = cs.length := by
  intro cs
  induction cs with
  | nil => intro idx _; exact ⟨[], rfl, rfl⟩
  | cons c cs ih =>
    intro idx hidx
    rw [pairLoop, hcalc]
    simp only [Option.bind_eq_bind, Option.bind_some]
    obtain ⟨o, ho, -⟩ := LawfulIndex.get_ok hidx (hfits c)
    rw [ho, Option.bind_some]
    cases o with
    | some b =>
      obtain ⟨ids, hids, hl⟩ := ih idx hidx
      simp only [hids, Option.bind_some]
      exact ⟨_, rfl, by simp [hl]⟩
    | none =>
      obtain ⟨idx', hadd, hidx', -⟩ := LawfulIndex.add_ok c.id hidx (hfits c)
      obtain ⟨ids, hids, hl⟩ := ih idx' hidx'
      simp only [hadd, hids, Option.bind_some]
      exact ⟨_, rfl, by simp [hl]⟩

variable [Ratio ρ] [BEq ρ]

/-- **A plain vector** is not what `SuperFeatureIndex` asks for: the first lookup throws. -/
theorem pairLoop_words {calculate : Chunk → Option (Feature ρ)}
    (hcalc : ∀ c, ∃ ws, calculate c = some (.words ws)) (c : Chunk) (cs : List Chunk)
    (idx : SuperFeatureIndex ρ) : pairLoop calculate Chunk.id (c :: cs) idx = none := by
  obtain ⟨ws, hws⟩ := hcalc c
  rw [pairLoop, hws]
  rfl

/-- **Exactly the pairs `palantir` and `bestfit` run.** Every calculator stays in range; the other
pairs stop at the first chunk. -/
theorem feature_pairs_iff (order : IterOrder (ρ × ℕ)) (countOrder : IterOrder (ℕ × ℕ)) (t : FeatureType) :
    (∀ c, (t.calculate c : Option (Feature ρ)).isSome) ∧
      ∀ cs, (∃ ids, t.classify order countOrder cs = some ids ∧ ids.length = cs.length) ↔
        t = .palantir ∨ t = .bestfit ∨ cs = [] := by
  have hsome : ∀ {calculate : Chunk → Option (Feature ρ)} {c : Chunk} {ws : List UInt64},
      calculate c = some (.words ws) → (calculate c).isSome := fun h => Option.isSome_iff_exists.2 ⟨_, h⟩
  have hthrows : ∀ {calculate : Chunk → Option (Feature ρ)} (cs : List Chunk),
      (∀ c, ∃ ws, calculate c = some (.words ws)) →
      ((∃ ids, pairLoop calculate Chunk.id cs (SuperFeatureIndex.new order 3 1) = some ids ∧ ids.length = cs.length) ↔
        cs = []) := by
    intro calculate cs hcalc
    cases cs with
    | nil => exact ⟨fun _ => rfl, fun _ => ⟨[], rfl, rfl⟩⟩
    | cons c cs =>
      rw [pairLoop_words hcalc]
      simp
  -- the three that give one list of words do not fit the index they are given
  cases t with
  | finesse =>
    have hcalc : ∀ c, ∃ ws, FeatureType.finesse.calculate (ρ := ρ) c = some (.words ws) :=
      FinesseFeature.run_ok
    refine ⟨fun c => (hcalc c).elim fun _ => hsome, fun cs => ?_⟩
    rw [FeatureType.classify, hthrows cs hcalc]
    simp
  | odess =>
    have hcalc : ∀ c, ∃ ws, FeatureType.odess.calculate (ρ := ρ) c = some (.words ws) := fun c => by
      unfold FeatureType.calculate OdessFeature.run
      exact ⟨_, OdessFeature.sampled_eq _ c⟩
    refine ⟨fun c => (hcalc c).elim fun _ => hsome, fun cs => ?_⟩
    rw [FeatureType.classify, hthrows cs hcalc]
    simp
  | nTransform =>
    have hcalc : ∀ c, ∃ ws, FeatureType.nTransform.calculate (ρ := ρ) c = some (.words ws) := fun c => by
      unfold FeatureType.calculate NTransformFeature.run
      exact ⟨_, OdessFeature.sampled_eq _ c⟩
    refine ⟨fun c => (hcalc c).elim fun _ => hsome, fun cs => ?_⟩
    rw [FeatureType.classify, hthrows cs hcalc]
    simp
  | palantir =>
    have hcalc : ∀ c, FeatureType.palantir.calculate (ρ := ρ) c = some (PalantirFeature.call c) :=
      PalantirFeature.run_eq
    refine ⟨fun c => Option.isSome_iff_exists.2 ⟨_, hcalc c⟩, fun cs => iff_of_true ?_ (.inl rfl)⟩
    exact pairLoop_ok hcalc (FeatureIndex.palantir order).fits cs _ (FeatureIndex.palantir order).ready
  | bestfit =>
    have hcalc : ∀ c, FeatureType.bestfit.calculate (ρ := ρ) c = some (OdessSubfeatures.call c) :=
      OdessSubfeatures.run_eq
    refine ⟨fun c => Option.isSome_iff_exists.2 ⟨_, hcalc c⟩, fun cs => iff_of_true ?_ (.inr (.inl rfl))⟩
    exact pairLoop_ok hcalc (FeatureIndex.bestfit (ρ := ρ) countOrder).fits cs _
      (FeatureIndex.bestfit (ρ := ρ) countOrder).ready

/-- `finesse`, on one chunk of one byte. -/
theorem finesse_throws : FeatureType.finesse.calculate (ρ := ℚ) ⟨[1], 0⟩ ≠ none ∧
    FeatureType.finesse.classify (ρ := ℚ) (.byInsertion _) (.byInsertion _) [⟨[1], 0⟩] = none := by
  obtain ⟨ws, hws⟩ := FinesseFeature.run_ok (ρ := ℚ) ⟨[1], 0⟩
  exact ⟨fun hnone => absurd (hws.symm.trans hnone) (by simp), pairLoop_words FinesseFeature.run_ok _ _ _⟩

end ChunkGrouping
