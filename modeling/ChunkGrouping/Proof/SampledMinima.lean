import ChunkGrouping.Lib.RunningMin
import ChunkGrouping.Proof.FeaturePairs

/-!
# Sub-features as minima

The calculators that sample lower each sub-feature to its transform of the fingerprint, at the
positions sampled. They count a 0 as not yet set. The fingerprints of `OdessSubfeatures` are
the low halves of those of `OdessFeature`, and a transform has 32 bits in either.

* `getElem?_subFeatures`, `getElem?_subFeatures_wide`: a sub-feature of either is a running
  minimum of the same transforms.
* `transform_ne_zero`: at a sampled position no transform is 0, since 128 divides no `A[j]`.
* `odess_subFeatures_minima`: the sub-features of both are the minima over the positions sampled.
* `nTransform_minimum_iff`: when those of `NTransformFeature` are the minima over all positions.
-/

namespace ChunkGrouping

open RunningMin

variable {ρ : Type}

/-! ## The fingerprints -/

/-- The fingerprints after each byte. -/
def fingerPrints {φ : Type} (step : φ → UInt8 → φ) : List UInt8 → φ → List φ
  | [], _ => []
  | b :: bytes, f => step f b :: fingerPrints step bytes (step f b)

theorem mem_fingerPrints {φ : Type} {step : φ → UInt8 → φ} {bytes : List UInt8} {f g : φ} :
    g ∈ fingerPrints step bytes f ↔ ∃ i < bytes.length, (bytes.take (i + 1)).foldl step f = g := by
  induction bytes generalizing f with
  | nil => simp [fingerPrints]
  | cons b bytes ih =>
    rw [fingerPrints, List.mem_cons, ih]
    constructor
    · rintro (rfl | ⟨i, hi, h⟩)
      · exact ⟨0, by simp, by simp⟩
      · exact ⟨i + 1, by simpa using hi, by simpa using h⟩
    · rintro ⟨i, hi, h⟩
      rcases i with _ | i
      · exact .inl (by simpa using h.symm)
      · exact .inr ⟨i, by simpa using hi, by simpa using h⟩

theorem getLast?_fingerPrints {φ : Type} {step : φ → UInt8 → φ} {bytes : List UInt8} (f : φ) (hne : bytes ≠ []) :
    (fingerPrints step bytes f).getLast? = some (bytes.foldl step f) := by
  induction bytes generalizing f with
  | nil => exact absurd rfl hne
  | cons b bytes ih =>
    rw [fingerPrints, List.foldl_cons]
    by_cases hb : bytes = []
    · obtain rfl := hb
      rfl
    · rw [List.getLast?_cons, ih _ hb]
      rfl

theorem fingerPrints_ne_nil {φ : Type} {step : φ → UInt8 → φ} {bytes : List UInt8} (f : φ) (hne : bytes ≠ []) :
    fingerPrints step bytes f ≠ [] := by
  obtain ⟨b, bytes, rfl⟩ := List.exists_cons_of_ne_nil hne
  simp [fingerPrints]

/-- **A 32-bit step is the low half of a 64-bit step.** -/
theorem OdessSubfeatures.step_toUInt32 (f : UInt64) (b : UInt8) : step f.toUInt32 b = (gearStep f b).toUInt32 := by
  apply UInt32.toNat_inj.1
  simp only [step, gearStep, UInt64.toNat_toUInt32, UInt64.toNat_add, UInt32.toNat_toUInt64, UInt32.toNat_shiftLeft,
    UInt64.toNat_shiftLeft, UInt32.toNat_ofNat, UInt64.toNat_ofNat, Nat.shiftLeft_eq,
    Nat.reducePow, Nat.reduceMod]
  omega

theorem fingerPrints_toUInt32 (bytes : List UInt8) (f : UInt64) :
    fingerPrints OdessSubfeatures.step bytes f.toUInt32 = (fingerPrints gearStep bytes f).map UInt64.toUInt32 := by
  induction bytes generalizing f with
  | nil => rfl
  | cons b bytes ih =>
    rw [fingerPrints, fingerPrints, List.map_cons, OdessSubfeatures.step_toUInt32, ih]

/-! ## The sub-features -/

/-- `(M[j] * fp + A[j]) mod 2^32`. -/
def Features.transform (j : ℕ) (fingerPrint : UInt64) : ℕ :=
  ((M.getD j 0).toNat * fingerPrint.toNat + (A.getD j 0).toNat) % 2 ^ 32

open Features in
theorem getElem?_transforms {α φ : Type} (transform : φ → UInt32 → UInt32 → α) (f : φ) {j : ℕ} (hj : j < 12) :
    (List.zipWith (transform f) M A)[j]? = some (transform f (M.getD j 0) (A.getD j 0)) := by
  have hM : M[j]? = some (M.getD j 0) := by
    rw [List.getD_eq_getElem?_getD, List.getElem?_eq_getElem (by exact hj)]
    rfl
  have hA : A[j]? = some (A.getD j 0) := by
    rw [List.getD_eq_getElem?_getD, List.getElem?_eq_getElem (by exact hj)]
    rfl
  rw [List.getElem?_zipWith, hM, hA]

theorem OdessFeature.toNat_transform (f : UInt64) (j : ℕ) :
    (transform f (Features.M.getD j 0) (Features.A.getD j 0)).toNat = Features.transform j f := by
  simp only [transform, Features.transform, UInt64.toNat_toUInt32, UInt64.toNat_add, UInt64.toNat_mul,
    UInt32.toNat_toUInt64]
  generalize (Features.M.getD j 0).toNat * f.toNat = x
  omega

theorem OdessSubfeatures.toNat_transform (f : UInt64) (j : ℕ) :
    (transform f.toUInt32 (Features.M.getD j 0) (Features.A.getD j 0)).toNat = Features.transform j f := by
  simp only [transform, Features.transform, UInt32.toNat_toUInt64, UInt32.toNat_add, UInt32.toNat_mul,
    UInt64.toNat_toUInt32]
  rw [Nat.mod_add_mod, Nat.add_mod, Nat.mul_mod, Nat.mod_mod, ← Nat.mul_mod, ← Nat.add_mod]

theorem OdessFeature.toNat_lower (s t : UInt32) : (lower s t).toNat = RunningMin.lower s.toNat t.toNat := by
  have hzero : s = 0 ↔ s.toNat = ⊥ := UInt32.toNat_inj.symm
  unfold lower RunningMin.lower
  rw [apply_ite UInt32.toNat]
  exact if_congr (or_congr UInt32.le_iff_toNat_le hzero) rfl rfl

theorem OdessSubfeatures.toNat_lower (s t : UInt64) : (lower s t).toNat = RunningMin.lower s.toNat t.toNat := by
  have hzero : s = 0 ↔ s.toNat = ⊥ := UInt64.toNat_inj.symm
  unfold lower RunningMin.lower
  rw [apply_ite UInt64.toNat]
  exact if_congr (or_congr UInt64.le_iff_toNat_le hzero) rfl rfl

theorem OdessFeature.loop_eq (pick : UInt64 → Bool) (bytes : List UInt8) (f : UInt64) (s : List UInt32) :
    loop pick bytes f s = ((fingerPrints gearStep bytes f).filter pick).foldl (fun s f => sample f s) s := by
  induction bytes generalizing f s with
  | nil => rfl
  | cons b bytes ih =>
    rw [loop, fingerPrints, List.filter_cons]
    split <;> exact ih _ _

theorem OdessSubfeatures.loop_eq (bytes : List UInt8) (f : UInt32) (s : List UInt64) :
    loop bytes f s = ((fingerPrints step bytes f).filter fun f => f &&& defaultOdessMask = 0).foldl
      (fun s f => sample f s) s := by
  induction bytes generalizing f s with
  | nil => rfl
  | cons b bytes ih =>
    rw [loop, fingerPrints, List.filter_cons]
    by_cases h : step f b &&& defaultOdessMask = 0
    · rw [if_pos h, if_pos (decide_eq_true h)]
      exact ih _ _
    · rw [if_neg h, if_neg (by simpa using h)]
      exact ih _ _

/-- The transforms at the positions sampled. -/
def sampledTransforms (pick : UInt64 → Bool) (chunk : Chunk) (j : ℕ) : List ℕ :=
  ((fingerPrints gearStep chunk.buf 0).filter pick).map (Features.transform j)

/-- A loop that lowers, in numbers. -/
theorem toNat_foldl {α φ : Type} (toNat : α → ℕ) {lower : α → α → α}
    (hlower : ∀ s t, toNat (lower s t) = RunningMin.lower (toNat s) (toNat t)) (v : φ → α) (fs : List φ) (a : α) :
    toNat ((fs.map v).foldl lower a) = (fs.map fun f => toNat (v f)).foldl RunningMin.lower (toNat a) := by
  induction fs generalizing a with
  | nil => rfl
  | cons f fs ih => rw [List.map_cons, List.map_cons, List.foldl_cons, List.foldl_cons, ih, hlower]

/-- **A sub-feature** of `NTransformFeature` and `OdessFeature`. -/
theorem getElem?_subFeatures (pick : UInt64 → Bool) (chunk : Chunk) {j : ℕ} (hj : j < 12) :
    ((OdessFeature.subFeatures pick chunk)[j]?).map UInt32.toNat = some (run (sampledTransforms pick chunk j)) := by
  have hslot := getElem?_foldl_zipWith OdessFeature.lower
    (fun f => List.zipWith (OdessFeature.transform f) Features.M Features.A)
    ((fingerPrints gearStep chunk.buf 0).filter pick) (fun f _ => getElem?_transforms OdessFeature.transform f hj)
    (List.getElem?_replicate_of_lt hj : (List.replicate 12 (0 : UInt32))[j]? = some 0)
  unfold OdessFeature.subFeatures
  rw [OdessFeature.loop_eq]
  unfold OdessFeature.sample
  rw [hslot, Option.map_some, toNat_foldl UInt32.toNat OdessFeature.toNat_lower]
  simp only [OdessFeature.toNat_transform]
  rfl

/-- `(finger_print & default_odess_mask) == 0`. -/
def sampledAt (f : UInt64) : Bool := f &&& defaultOdessMask.toUInt64 == 0

theorem sampledAt_iff (f : UInt64) : sampledAt f = true ↔ f.toNat % 128 = 0 := by
  have hmask : f.toNat &&& 127 = f.toNat % 128 := Nat.and_two_pow_sub_one_eq_mod f.toNat 7
  rw [← hmask, sampledAt, beq_iff_eq, ← UInt64.toNat_inj, UInt64.toNat_and]
  rfl

/-- The low half decides. -/
theorem sampledAt_toUInt32 (f : UInt64) : (decide (f.toUInt32 &&& defaultOdessMask = 0)) = sampledAt f := by
  have hmask : f.toUInt32.toNat &&& 127 = f.toUInt32.toNat % 128 := Nat.and_two_pow_sub_one_eq_mod _ 7
  rw [Bool.eq_iff_iff, decide_eq_true_iff, sampledAt_iff, ← UInt32.toNat_inj, UInt32.toNat_and]
  change f.toUInt32.toNat &&& 127 = 0 ↔ _
  rw [hmask, UInt64.toNat_toUInt32]
  omega

/-- **A sub-feature** of `OdessSubfeatures`. -/
theorem getElem?_subFeatures_wide (chunk : Chunk) {j : ℕ} (hj : j < 12) :
    ((OdessSubfeatures.subFeatures chunk)[j]?).map UInt64.toNat = some (run (sampledTransforms sampledAt chunk j)) := by
  have hslot := getElem?_foldl_zipWith OdessSubfeatures.lower
    (fun f => List.zipWith (OdessSubfeatures.transform f) Features.M Features.A)
    (((fingerPrints gearStep chunk.buf 0).filter sampledAt).map UInt64.toUInt32)
    (fun f _ => getElem?_transforms OdessSubfeatures.transform f hj)
    (List.getElem?_replicate_of_lt hj : (List.replicate 12 (0 : UInt64))[j]? = some 0)
  have hprints : (fingerPrints OdessSubfeatures.step chunk.buf 0).filter (fun f => f &&& defaultOdessMask = 0) =
      ((fingerPrints gearStep chunk.buf 0).filter sampledAt).map UInt64.toUInt32 := by
    have hlow : fingerPrints OdessSubfeatures.step chunk.buf 0 = _ := fingerPrints_toUInt32 chunk.buf 0
    rw [hlow, List.filter_map]
    exact congrArg (List.map _) (List.filter_congr fun f _ => sampledAt_toUInt32 f)
  unfold OdessSubfeatures.subFeatures
  rw [OdessSubfeatures.loop_eq, hprints]
  unfold OdessSubfeatures.sample
  rw [hslot, Option.map_some, toNat_foldl UInt64.toNat OdessSubfeatures.toNat_lower, List.map_map]
  have hvalue : ∀ f, (OdessSubfeatures.transform (UInt64.toUInt32 f) (Features.M.getD j 0)
      (Features.A.getD j 0)).toNat = Features.transform j f := fun f => OdessSubfeatures.toNat_transform f j
  simp only [Function.comp_def, hvalue]
  rfl

/-! ## The minima -/

/-- `fp` is the fingerprint after some byte of the chunk, at which it is sampled. -/
def IsSampled (pick : UInt64 → Bool) (chunk : Chunk) (fp : UInt64) : Prop :=
  ∃ i < chunk.buf.length, gearPrint (chunk.buf.take (i + 1)) = fp ∧ pick fp = true

theorem mem_sampledTransforms {pick : UInt64 → Bool} {chunk : Chunk} {j t : ℕ} :
    t ∈ sampledTransforms pick chunk j ↔ ∃ fp, IsSampled pick chunk fp ∧ Features.transform j fp = t := by
  unfold sampledTransforms IsSampled
  rw [List.mem_map]
  refine exists_congr fun fp => and_congr_left fun _ => ?_
  rw [List.mem_filter, mem_fingerPrints]
  constructor
  · rintro ⟨⟨i, hi, h⟩, hp⟩
    exact ⟨i, hi, h, hp⟩
  · rintro ⟨i, hi, h, hp⟩
    exact ⟨⟨i, hi, h⟩, hp⟩

/-- **No transform is 0** at a fingerprint that is sampled. -/
theorem transform_ne_zero {fp : UInt64} (hp : sampledAt fp = true) {j : ℕ} (hj : j < 12) :
    Features.transform j fp ≠ 0 := by
  have hA : ∀ j < 12, (Features.A.getD j 0).toNat % 128 ≠ 0 := by decide
  have hne := hA j hj
  have hfp := (sampledAt_iff fp).1 hp
  unfold Features.transform
  have hmul : ((Features.M.getD j 0).toNat * fp.toNat) % 128 = 0 := by
    rw [Nat.mul_mod, hfp, Nat.mul_zero, Nat.zero_mod]
  omega

theorem bot_notMem_sampledTransforms (chunk : Chunk) {j : ℕ} (hj : j < 12) :
    ⊥ ∉ sampledTransforms sampledAt chunk j := by
  rw [mem_sampledTransforms]
  rintro ⟨fp, ⟨i, -, -, hp⟩, ht⟩
  exact transform_ne_zero hp hj ht

theorem sampledTransforms_eq_nil {pick : UInt64 → Bool} {chunk : Chunk} {j : ℕ} :
    sampledTransforms pick chunk j = [] ↔ ∀ fp, ¬IsSampled pick chunk fp := by
  rw [List.eq_nil_iff_forall_not_mem]
  constructor
  · intro h fp hfp
    exact h _ (mem_sampledTransforms.2 ⟨fp, hfp, rfl⟩)
  · intro h t ht
    obtain ⟨fp, hfp, -⟩ := mem_sampledTransforms.1 ht
    exact h fp hfp

/-- 0 is left only where nothing was sampled. -/
theorem run_sampledTransforms_eq_zero (chunk : Chunk) {j : ℕ} (hj : j < 12) :
    run (sampledTransforms sampledAt chunk j) = 0 ↔ ∀ fp, ¬IsSampled sampledAt chunk fp := by
  rw [← sampledTransforms_eq_nil]
  constructor
  · intro hrun
    by_contra hne
    -- the minimum is one of the transforms, and none of them is 0
    have hleast := (isLeast_run hne (bot_notMem_sampledTransforms chunk hj)).1
    rw [hrun] at hleast
    exact bot_notMem_sampledTransforms chunk hj hleast
  · intro h
    rw [h]
    rfl

/-- A transform depends on the low half. -/
theorem transform_congr {fp fp' : UInt64} (h : fp.toUInt32 = fp'.toUInt32) (j : ℕ) :
    Features.transform j fp = Features.transform j fp' := by
  rw [← OdessSubfeatures.toNat_transform, h, OdessSubfeatures.toNat_transform]

/-- The minima depend on the low halves that are sampled. -/
theorem run_sampledTransforms_congr {chunk chunk' : Chunk}
    (hset : ∀ low, (∃ fp, IsSampled sampledAt chunk fp ∧ fp.toUInt32 = low) ↔
      ∃ fp, IsSampled sampledAt chunk' fp ∧ fp.toUInt32 = low) {j : ℕ} (hj : j < 12) :
    run (sampledTransforms sampledAt chunk j) = run (sampledTransforms sampledAt chunk' j) := by
  refine run_congr (fun t => ?_) (bot_notMem_sampledTransforms chunk hj)
  rw [mem_sampledTransforms, mem_sampledTransforms]
  constructor
  · rintro ⟨fp, hfp, rfl⟩
    obtain ⟨fp', hfp', hlow⟩ := (hset _).1 ⟨fp, hfp, rfl⟩
    exact ⟨fp', hfp', transform_congr hlow j⟩
  · rintro ⟨fp, hfp, rfl⟩
    obtain ⟨fp', hfp', hlow⟩ := (hset _).2 ⟨fp, hfp, rfl⟩
    exact ⟨fp', hfp', transform_congr hlow j⟩

/-- Lists of 12 numbers that are equal position by position. -/
theorem eq_of_slots {α : Type} {toNat : α → ℕ} (hinj : Function.Injective toNat) {s s' : List α} (hs : s.length = 12)
    (hs' : s'.length = 12) (h : ∀ j < 12, s[j]?.map toNat = s'[j]?.map toNat) : s = s' := by
  apply List.ext_getElem?
  intro j
  rcases Nat.lt_or_ge j 12 with hj | hj
  · exact Option.map_injective hinj (h j hj)
  · rw [List.getElem?_eq_none (hs ▸ hj), List.getElem?_eq_none (hs' ▸ hj)]

/-- **The sub-features of `OdessSubfeatures` and `OdessFeature` are the minima** of the transforms at the
positions sampled, 0 without one, and depend on the low halves of the fingerprints sampled only. -/
theorem odess_subFeatures_minima (chunk : Chunk) :
    (OdessSubfeatures.run chunk : Option (Feature ρ)) = some (.words (OdessSubfeatures.subFeatures chunk)) ∧
    (OdessFeature.run chunk : Option (Feature ρ)) =
      some (.words (OdessFeature.superFeatures (OdessFeature.subFeatures sampledAt chunk))) ∧
    (∀ j < 12, ∃ m, (OdessSubfeatures.subFeatures chunk)[j]?.map UInt64.toNat = some m ∧
      (OdessFeature.subFeatures sampledAt chunk)[j]?.map UInt32.toNat = some m ∧
      ((∃ fp, IsSampled sampledAt chunk fp) →
        IsLeast {t | ∃ fp, IsSampled sampledAt chunk fp ∧ Features.transform j fp = t} m) ∧
      (m = 0 ↔ ∀ fp, ¬IsSampled sampledAt chunk fp)) ∧
    ∀ chunk' : Chunk, (∀ low, (∃ fp, IsSampled sampledAt chunk fp ∧ fp.toUInt32 = low) ↔
        ∃ fp, IsSampled sampledAt chunk' fp ∧ fp.toUInt32 = low) →
      OdessSubfeatures.subFeatures chunk = OdessSubfeatures.subFeatures chunk' ∧
      OdessFeature.subFeatures sampledAt chunk = OdessFeature.subFeatures sampledAt chunk' := by
  refine ⟨OdessSubfeatures.run_eq chunk, OdessFeature.sampled_eq sampledAt chunk, fun j hj => ?_, fun chunk' hset => ?_⟩
  · have hmem : {t | t ∈ sampledTransforms sampledAt chunk j} =
        {t | ∃ fp, IsSampled sampledAt chunk fp ∧ Features.transform j fp = t} :=
      Set.ext fun t => mem_sampledTransforms
    refine ⟨_, getElem?_subFeatures_wide chunk hj, getElem?_subFeatures sampledAt chunk hj, ?_,
      run_sampledTransforms_eq_zero chunk hj⟩
    rintro ⟨fp, hfp⟩
    rw [← hmem]
    apply isLeast_run
    · exact fun h => sampledTransforms_eq_nil.1 h fp hfp
    · exact bot_notMem_sampledTransforms chunk hj
  · constructor
    · refine eq_of_slots (fun a b => UInt64.toNat_inj.1) (OdessSubfeatures.length_subFeatures chunk)
        (OdessSubfeatures.length_subFeatures chunk') fun j hj => ?_
      rw [getElem?_subFeatures_wide chunk hj, getElem?_subFeatures_wide chunk' hj, run_sampledTransforms_congr hset hj]
    · refine eq_of_slots (fun a b => UInt32.toNat_inj.1) (OdessFeature.length_loop _ _ _ List.length_replicate)
        (OdessFeature.length_loop _ _ _ List.length_replicate) fun j hj => ?_
      rw [getElem?_subFeatures _ chunk hj, getElem?_subFeatures _ chunk' hj, run_sampledTransforms_congr hset hj]

/-! ## `NTransformFeature` -/

/-- **A sub-feature of `NTransformFeature` is the minimum** over all positions exactly when no transform is
0, or the last one is. -/
theorem nTransform_minimum_iff (chunk : Chunk) (hne : chunk.buf ≠ []) {j : ℕ} (hj : j < 12) :
    (NTransformFeature.run chunk : Option (Feature ρ)) =
      some (.words (OdessFeature.superFeatures (OdessFeature.subFeatures (fun _ => true) chunk))) ∧
    ∃ m, (OdessFeature.subFeatures (fun _ => true) chunk)[j]?.map UInt32.toNat = some m ∧
      (IsLeast {t | ∃ i < chunk.buf.length, Features.transform j (gearPrint (chunk.buf.take (i + 1))) = t} m ↔
        ((∃ i < chunk.buf.length, Features.transform j (gearPrint (chunk.buf.take (i + 1))) = 0) →
          Features.transform j (gearPrint chunk.buf) = 0)) := by
  refine ⟨OdessFeature.sampled_eq _ chunk, _, getElem?_subFeatures _ chunk hj, ?_⟩
  have hmem : ∀ t, t ∈ sampledTransforms (fun _ => true) chunk j ↔
      ∃ i < chunk.buf.length, Features.transform j (gearPrint (chunk.buf.take (i + 1))) = t := by
    intro t
    rw [mem_sampledTransforms]
    constructor
    · rintro ⟨fp, ⟨i, hi, rfl, -⟩, ht⟩
      exact ⟨i, hi, ht⟩
    · rintro ⟨i, hi, ht⟩
      exact ⟨_, ⟨i, hi, rfl, rfl⟩, ht⟩
  have hall : sampledTransforms (fun _ => true) chunk j =
      (fingerPrints gearStep chunk.buf 0).map (Features.transform j) := by
    rw [sampledTransforms, List.filter_true]
  have hts : sampledTransforms (fun _ => true) chunk j ≠ [] := by
    rw [hall]
    exact fun h => fingerPrints_ne_nil 0 hne (List.map_eq_nil_iff.1 h)
  have hlast : (sampledTransforms (fun _ => true) chunk j).getLast? =
      some (Features.transform j (gearPrint chunk.buf)) := by
    rw [hall, List.getLast?_map, getLast?_fingerPrints 0 hne]
    rfl
  have hset : {t | t ∈ sampledTransforms (fun _ => true) chunk j} =
      {t | ∃ i < chunk.buf.length, Features.transform j (gearPrint (chunk.buf.take (i + 1))) = t} := Set.ext hmem
  rw [← hset, isLeast_run_iff hts, hlast, hmem, Option.some.injEq]
  rfl

/-- At slot 0 none of the five transforms is 0, and the fourth is the least; at slot 1 the fourth is 0, and
is kept where it is the last. -/
theorem nTransform_minimum_five :
    ((OdessFeature.subFeatures (fun _ => true) ⟨[226, 159, 25, 136, 0], 0⟩)[0]?.map UInt32.toNat = some 1998395176 ∧
      IsLeast {t | ∃ i < 5, Features.transform 0 (gearPrint ([226, 159, 25, 136, 0].take (i + 1))) = t} 1998395176) ∧
    (OdessFeature.subFeatures (fun _ => true) ⟨[226, 159, 25, 136], 0⟩)[1]?.map UInt32.toNat = some 0 ∧
      IsLeast {t | ∃ i < 4, Features.transform 1 (gearPrint ([226, 159, 25, 136].take (i + 1))) = t} 0 := by
  constructor
  · obtain ⟨-, m, hm, hiff⟩ :=
      nTransform_minimum_iff (ρ := ℚ) ⟨[226, 159, 25, 136, 0], 0⟩ (by simp) (by decide : 0 < 12)
    have hnone : ∀ i < 5, Features.transform 0 (gearPrint ([226, 159, 25, 136, 0].take (i + 1))) ≠ 0 := by
      decide +kernel
    have hslot : (OdessFeature.subFeatures (fun _ => true) ⟨[226, 159, 25, 136, 0], 0⟩)[0]?.map UInt32.toNat =
        some 1998395176 := by decide +kernel
    obtain rfl : m = 1998395176 := Option.some.inj (hm.symm.trans hslot)
    refine ⟨hslot, hiff.2 ?_⟩
    rintro ⟨i, hi, h⟩
    exact absurd h (hnone i hi)
  · obtain ⟨-, m, hm, hiff⟩ :=
      nTransform_minimum_iff (ρ := ℚ) ⟨[226, 159, 25, 136], 0⟩ (by simp) (by decide : 1 < 12)
    have hlast : Features.transform 1 (gearPrint [226, 159, 25, 136]) = 0 := by decide +kernel
    have hslot : (OdessFeature.subFeatures (fun _ => true) ⟨[226, 159, 25, 136], 0⟩)[1]?.map UInt32.toNat =
        some 0 := by decide +kernel
    obtain rfl : m = 0 := Option.some.inj (hm.symm.trans hslot)
    exact ⟨hslot, hiff.2 fun _ => hlast⟩

/-- After 4 bytes the second transform is 0, the fifth byte overwrites it. -/
theorem nTransform_overwrites_zero : ∃ m,
    (OdessFeature.subFeatures (fun _ => true) ⟨[226, 159, 25, 136, 0], 0⟩)[1]?.map UInt32.toNat = some m ∧
      ¬IsLeast {t | ∃ i < 5, Features.transform 1 (gearPrint ([226, 159, 25, 136, 0].take (i + 1))) = t} m := by
  refine ⟨351205311, by decide +kernel, fun hleast => ?_⟩
  have hzero : (0 : ℕ) ∈ {t | ∃ i < 5, Features.transform 1 (gearPrint ([226, 159, 25, 136, 0].take (i + 1))) = t} :=
    ⟨3, by decide, by decide +kernel⟩
  exact absurd (hleast.2 hzero) (by decide)

end ChunkGrouping
