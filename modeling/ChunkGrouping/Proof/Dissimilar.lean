import ChunkGrouping.Lib.Packing
import ChunkGrouping.Proof.Kept
import ChunkGrouping.Proof.PalantirIndex
import ChunkGrouping.Proof.Sequential

/-!
# Bases are pairwise dissimilar

In the sequential mode a chunk becomes a base when no super-feature of it is known and
its share of zero bytes is not near a known one. So `PalantirIndex` is a table of the
bases (`indexOf`), all its keys are different, and the zero ratios are 0.01 apart in
`[0, 1]`, which has room for 101 of them.

* `SeqRun`: the chunks of any number of files, one after the other.
* `getBaseChunkID_indexOf`, `addFeature_indexOf`: the calls on a table of bases.
* `SeqRun.basesOK`: what every run keeps.
* `bases_dissimilar`: the bases, the entries of the index, the groups.
-/

namespace ChunkGrouping

open InsertMap SuperFeatureIndex

/-! ## The run -/

section Run

variable {ι φ : Type} [Index ι φ]

/-- **The sequential mode**, chunk after chunk and file after file: the chunks so far, those of them
made bases, and the state. -/
inductive SeqRun (codec : Codec) (feature : Chunk → φ) (d₀ : DeltaState ι) :
    List Chunk → List Chunk → DeltaState ι → Prop
  | start : SeqRun codec feature d₀ [] [] d₀
  | base {cs bases : List Chunk} {d d' : DeltaState ι} {c : Chunk} {m m' : FileMeta} :
      SeqRun codec feature d₀ cs bases d → c.buf ≠ [] →
      Index.getBaseChunkID (feature c) d.index = some none → d.addChunk feature c m = some (m', d') →
      SeqRun codec feature d₀ (cs ++ [c]) (bases ++ [c]) d'
  | delta {cs bases : List Chunk} {d d' : DeltaState ι} {c : Chunk} {m m' : FileMeta} {b : ℕ} :
      SeqRun codec feature d₀ cs bases d → c.buf ≠ [] →
      Index.getBaseChunkID (feature c) d.index = some (some b) → d.addChunk feature c m = some (m', d') →
      SeqRun codec feature d₀ (cs ++ [c]) bases d'
  | endFile {cs bases : List Chunk} {d : DeltaState ι} {g : GroupState} :
      SeqRun codec feature d₀ cs bases d → d.storage.groupByBase codec 16 d.totals = some g →
      SeqRun codec feature d₀ cs bases { d with storage := g.storage, totals := g.totals }

variable {codec : Codec} {feature : Chunk → φ} {d₀ : DeltaState ι} {cs bases : List Chunk}

theorem SeqRun.addChunks (cs' : List Chunk) (hne : ∀ c ∈ cs', c.buf ≠ []) : ∀ {cs bases : List Chunk}
    {m m' : FileMeta} {d d' : DeltaState ι}, SeqRun codec feature d₀ cs bases d →
      ChunkGrouping.addChunks feature cs' m d = some (m', d') →
      ∃ more, SeqRun codec feature d₀ (cs ++ cs') (bases ++ more) d' := by
  induction cs' with
  | nil =>
    intro cs bases m m' d d' h ha
    obtain ⟨-, rfl⟩ := Prod.mk.inj (Option.some.inj ha)
    exact ⟨[], by simpa using h⟩
  | cons c cs' ih =>
    intro cs bases m m' d d' h ha
    simp only [ChunkGrouping.addChunks, Option.bind_eq_bind, Option.bind_eq_some_iff] at ha
    obtain ⟨⟨m₁, d₁⟩, hc, ha⟩ := ha
    have hc0 := hne c List.mem_cons_self
    have hne' : ∀ c' ∈ cs', c'.buf ≠ [] := fun c' hc' => hne c' (List.mem_cons_of_mem _ hc')
    rcases (addChunk_cases hc).2 with ⟨-, ho, -⟩ | ⟨b, -, ho, -⟩
    · obtain ⟨more, hm⟩ := ih hne' (h.base hc0 ho hc) ha
      exact ⟨c :: more, by simpa using hm⟩
    · obtain ⟨more, hm⟩ := ih hne' (h.delta hc0 ho hc) ha
      exact ⟨more, by simpa using hm⟩

/-- **`AddFile` is such a run** when its chunks are not empty. -/
theorem SeqRun.addFile {κ : Type} [Chunker κ] {fileName : String} {content : FileContent}
    {d d' : DeltaCompression κ ι} (h : SeqRun codec feature d₀ cs bases d.toDeltaState)
    (hd : d.addFile codec feature fileName content = some d')
    (hne : ∀ cs' k, drainFile content d.chunker = some (cs', k) → ∀ c ∈ cs', c.buf ≠ []) :
    ∃ cs' more, SeqRun codec feature d₀ (cs ++ cs') (bases ++ more) d'.toDeltaState := by
  obtain ⟨cs', k, m, s, g, hdrain, ha, hg, hd', -⟩ := addFile_cases hd
  obtain ⟨more, hs⟩ := h.addChunks cs' (hne cs' k hdrain) ha
  exact ⟨cs', more, hd' ▸ hs.endFile hg⟩

end Run

/-! ## The features of a chunk -/

/-- The super-features of a chunk, level by level. -/
def superFeatures (c : Chunk) : List (List UInt64) :=
  levelShapes.map fun p => PalantirFeature.group (OdessSubfeatures.subFeatures c) p.1 p.2

/-- The share of zero bytes. -/
def zeroRatio (c : Chunk) : ℚ := PalantirFeature.zeroCal c.buf

/-- **Two dissimilar chunks**: every super-feature at every position of every level differs, and so
do the zero ratios by the threshold. -/
structure Dissimilar (c c' : Chunk) : Prop where
  words : List.Forall₂ (List.Forall₂ (· ≠ ·)) (superFeatures c) (superFeatures c')
  zeros : 1 / 100 ≤ |zeroRatio c - zeroRatio c'|

theorem zeroRatio_mem (c : Chunk) : 0 ≤ zeroRatio c ∧ zeroRatio c ≤ (100 : ℕ) * (1 / 100) := by
  have hle : c.buf.count 0 ≤ c.buf.length := List.count_le_length
  show 0 ≤ ((c.buf.count 0 : ℕ) : ℚ) / (c.buf.length : ℕ) ∧
    ((c.buf.count 0 : ℕ) : ℚ) / (c.buf.length : ℕ) ≤ (100 : ℕ) * (1 / 100)
  refine ⟨by positivity, ?_⟩
  have h1 : ((100 : ℕ) : ℚ) * (1 / 100) = 1 := by norm_num
  rw [h1]
  exact div_le_one_of_le₀ (by exact_mod_cast hle) (by positivity)

/-- At most 101 chunks are pairwise dissimilar. -/
theorem length_le_of_dissimilar {bases : List Chunk} (h : bases.Pairwise Dissimilar) : bases.length ≤ 101 := by
  have := Packing.length_le (δ := (1 / 100 : ℚ)) (by norm_num) (n := 100)
    (show ∀ x ∈ bases.map zeroRatio, 0 ≤ x ∧ x ≤ (100 : ℕ) * (1 / 100 : ℚ) from fun x hx => by
      obtain ⟨c, -, rfl⟩ := List.mem_map.1 hx
      exact zeroRatio_mem c)
    (by rw [List.pairwise_map]; exact h.imp Dissimilar.zeros)
  rwa [List.length_map] at this

/-! ## An index of bases -/

/-- Super-feature `i` of a level with `sfSubf` sub-features each. -/
def superFeature (sfSubf i : ℕ) (c : Chunk) : UInt64 :=
  PalantirFeature.hashValue
    ((((OdessSubfeatures.subFeatures c).flatMap fun w => LittleEndian.toLE 8 w.toNat).drop (i * (sfSubf * 8))).take
      (sfSubf * 8))

theorem group_eq (c : Chunk) (p : ℕ × ℕ) : PalantirFeature.group (OdessSubfeatures.subFeatures c) p.1 p.2 =
    (List.range p.1).map fun i => superFeature p.2 i c := rfl

/-- A level whose maps hold the bases and nothing else, and whose ratios are `ratios`. -/
def levelOf (order : IterOrder (ℚ × ℕ)) (bases : List Chunk) (ratios : Entries ℚ ℕ) (p : ℕ × ℕ) :
    SuperFeatureIndex ℚ where
  index := (List.range p.1).map fun i => bases.map fun c => (superFeature p.2 i c, c.id)
  indexFloat := [ratios]
  order

/-- The zero ratios of the bases. -/
def ratiosOf (bases : List Chunk) : Entries ℚ ℕ := bases.map fun c => (zeroRatio c, c.id)

/-- **An index of bases**: in each map the base's feature at that place leads to the base. -/
def indexOf (order : IterOrder (ℚ × ℕ)) (bases : List Chunk) : PalantirIndex ℚ where
  levels := [levelOf order bases [] (3, 4), levelOf order bases [] (4, 3),
    levelOf order bases (ratiosOf bases) (6, 2)]

/-- **`AddFeature` overwrites nothing**: no key that it sets for the chunk is in its map. -/
structure Unset (c : Chunk) (idx : PalantirIndex ℚ) : Prop where
  words : List.Forall₂ (fun ws l => List.Forall₂ (fun w m => get? w m = none) ws l.index) (superFeatures c) idx.levels
  zeros : ∀ l, idx.levels.getLast? = some l → ∀ m ∈ l.indexFloat, get? (zeroRatio c) m = none

variable {order : IterOrder (ℚ × ℕ)} {bases : List Chunk} {c : Chunk}

theorem length_group (c : Chunk) (sfCnt sfSubf : ℕ) :
    (PalantirFeature.group (OdessSubfeatures.subFeatures c) sfCnt sfSubf).length = sfCnt := by
  simp [PalantirFeature.group]

theorem isLevel_levelOf (order : IterOrder (ℚ × ℕ)) (bases : List Chunk) (ratios : Entries ℚ ℕ) (p : ℕ × ℕ) :
    IsLevel p.1 (levelOf order bases ratios p) ratios := ⟨by simp [levelOf], rfl⟩

theorem get?_map_eq_none {K : Type} [BEq K] [LawfulBEq K] {key : Chunk → K} {k : K} :
    get? k (bases.map fun b => (key b, b.id)) = none ↔ ∀ b ∈ bases, key b ≠ k := by
  rw [← Option.not_isSome_iff_eq_none, isSome_get?_iff]
  simp

/-- Found in a level: some base has the super-feature at that place. -/
theorem wordFound_levelOf (ratios : Entries ℚ ℕ) (p : ℕ × ℕ) :
    WordFound (levelOf order bases ratios p).index (PalantirFeature.group (OdessSubfeatures.subFeatures c) p.1 p.2) ↔
      ∃ i ∈ List.range p.1, ∃ b ∈ bases, superFeature p.2 i b = superFeature p.2 i c := by
  rw [group_eq]
  unfold levelOf
  induction List.range p.1 with
  | nil => simp [WordFound]
  | cons i is ih =>
    rw [List.map_cons, List.map_cons, WordFound, ih, isSome_get?_iff]
    simp

/-- The super-features of two chunks differ at every place of a level. -/
theorem forall₂_group {c' : Chunk} (p : ℕ × ℕ) :
    List.Forall₂ (· ≠ ·) (PalantirFeature.group (OdessSubfeatures.subFeatures c') p.1 p.2)
        (PalantirFeature.group (OdessSubfeatures.subFeatures c) p.1 p.2) ↔
      ∀ i ∈ List.range p.1, superFeature p.2 i c' ≠ superFeature p.2 i c := by
  rw [group_eq, group_eq, List.forall₂_map_left_iff, List.forall₂_map_right_iff, List.forall₂_same]

theorem dissimilar_iff {c' : Chunk} : Dissimilar c' c ↔
    (∀ p ∈ levelShapes, ∀ i ∈ List.range p.1, superFeature p.2 i c' ≠ superFeature p.2 i c) ∧
      1 / 100 ≤ |zeroRatio c' - zeroRatio c| := by
  have hwords : List.Forall₂ (List.Forall₂ (· ≠ ·)) (superFeatures c') (superFeatures c) ↔
      ∀ p ∈ levelShapes, ∀ i ∈ List.range p.1, superFeature p.2 i c' ≠ superFeature p.2 i c := by
    unfold superFeatures
    rw [List.forall₂_map_left_iff, List.forall₂_map_right_iff, List.forall₂_same]
    exact forall₂_congr fun p _ => forall₂_group p
  exact ⟨fun h => ⟨hwords.1 h.words, h.zeros⟩, fun h => ⟨hwords.2 h.1, h.2⟩⟩

/-- **A lookup in an index of bases** finds nothing exactly when the chunk is dissimilar to all of
them, and otherwise a base. -/
theorem getBaseChunkID_indexOf (order : IterOrder (ℚ × ℕ)) (bases : List Chunk) (c : Chunk) : ∃ o,
    PalantirIndex.getBaseChunkID (PalantirFeature.call c) (indexOf order bases) = some o ∧
      (o = none ↔ ∀ b ∈ bases, Dissimilar b c) ∧ ∀ id, o = some id → ∃ b ∈ bases, b.id = id := by
  obtain ⟨o, ho, hfound, hknown⟩ := PalantirIndex.getBaseChunkID_ok (x := zeroRatio c)
    (isLevel_levelOf order bases [] (3, 4)) (isLevel_levelOf order bases [] (4, 3))
    (isLevel_levelOf order bases (ratiosOf bases) (6, 2)) (length_group c 3 4) (length_group c 4 3) (length_group c 6 2)
  refine ⟨o, ho, ?_, fun id hid => ?_⟩
  · rw [← Option.not_isSome_iff_eq_none, hfound]
    unfold PalantirIndex.Found
    rw [wordFound_levelOf [] (3, 4), wordFound_levelOf [] (4, 3), wordFound_levelOf (ratiosOf bases) (6, 2)]
    have hnear : (∃ k ∈ (ratiosOf bases).map Prod.fst, Ratio.near k (zeroRatio c)) ↔
        ∃ b ∈ bases, |zeroRatio b - zeroRatio c| < 1 / 100 := by
      simp [ratiosOf, Ratio.near]
    rw [hnear]
    simp only [dissimilar_iff, levelShapes, List.forall_mem_cons, List.not_mem_nil, false_implies, implies_true,
      and_true]
    push Not
    constructor
    · rintro ⟨h₁, h₂, h₃, h₄⟩ b hb
      exact ⟨⟨fun i hi => h₁ i hi b hb, fun i hi => h₂ i hi b hb, fun i hi => h₃ i hi b hb⟩, h₄ b hb⟩
    · intro h
      exact ⟨fun i hi b hb => (h b hb).1.1 i hi, fun i hi b hb => (h b hb).1.2.1 i hi,
        fun i hi b hb => (h b hb).1.2.2 i hi, fun b hb => (h b hb).2⟩
  · -- whatever level the id was found in, it was added for a base
    obtain ⟨l, hl, hin⟩ := hknown id hid
    simp only [List.mem_cons, List.not_mem_nil, or_false] at hl
    have hword : ∀ {ratios : Entries ℚ ℕ} {p : ℕ × ℕ}, IdIn (levelOf order bases ratios p).index id →
        ∃ b ∈ bases, b.id = id := by
      rintro ratios p ⟨m, hm, e, he, rfl⟩
      obtain ⟨i, -, rfl⟩ := List.mem_map.1 hm
      obtain ⟨b, hb, rfl⟩ := List.mem_map.1 he
      exact ⟨b, hb, rfl⟩
    rcases hl with rfl | rfl | rfl <;> rcases hin with hin | ⟨m, hm, e, he, rfl⟩
    · exact hword hin
    · rw [List.mem_singleton.1 hm] at he; cases he
    · exact hword hin
    · rw [List.mem_singleton.1 hm] at he; cases he
    · exact hword hin
    · rw [List.mem_singleton.1 hm] at he
      obtain ⟨b, hb, rfl⟩ := List.mem_map.1 he
      exact ⟨b, hb, rfl⟩

theorem unset_indexOf (h : ∀ b ∈ bases, Dissimilar b c) : Unset c (indexOf order bases) := by
  have hword : ∀ p ∈ levelShapes, ∀ ratios, List.Forall₂ (fun w m => get? w m = none)
      (PalantirFeature.group (OdessSubfeatures.subFeatures c) p.1 p.2) (levelOf order bases ratios p).index := by
    intro p hp ratios
    unfold levelOf
    rw [group_eq, List.forall₂_map_left_iff, List.forall₂_map_right_iff, List.forall₂_same]
    exact fun i hi => get?_map_eq_none.2 fun b hb => (dissimilar_iff.1 (h b hb)).1 p hp i hi
  refine ⟨.cons (hword (3, 4) (by decide) _) (.cons (hword (4, 3) (by decide) _)
    (.cons (hword (6, 2) (by decide) _) .nil)), fun l hl m hm => ?_⟩
  obtain rfl := Option.some.inj hl
  rw [List.mem_singleton.1 hm]
  refine get?_map_eq_none.2 fun b hb heq => ?_
  have hz := (h b hb).zeros
  rw [heq, sub_self, abs_zero] at hz
  norm_num at hz

theorem set_map {K : Type} [BEq K] [LawfulBEq K] (key : Chunk → K) (h : ∀ b ∈ bases, key b ≠ key c) :
    InsertMap.set (key c) c.id (bases.map fun b => (key b, b.id)) = (bases ++ [c]).map fun b => (key b, b.id) := by
  rw [set_of_not_mem, List.map_append, List.map_singleton]
  simpa using h

theorem withWords_levelOf (ratios : Entries ℚ ℕ) {p : ℕ × ℕ} (hp : p ∈ levelShapes)
    (h : ∀ b ∈ bases, Dissimilar b c) :
    PalantirIndex.withWords c.id (PalantirFeature.group (OdessSubfeatures.subFeatures c) p.1 p.2)
      (levelOf order bases ratios p) = levelOf order (bases ++ [c]) ratios p := by
  unfold PalantirIndex.withWords levelOf
  rw [group_eq, List.zipWith_map, List.zipWith_self]
  congr 1
  exact List.map_congr_left fun i hi => set_map _ fun b hb => (dissimilar_iff.1 (h b hb)).1 p hp i hi

/-- **Adding a dissimilar chunk** adds it to the table. -/
theorem addFeature_indexOf (order : IterOrder (ℚ × ℕ)) (h : ∀ b ∈ bases, Dissimilar b c) :
    PalantirIndex.addFeature (PalantirFeature.call c) c.id (indexOf order bases) =
      some (indexOf order (bases ++ [c])) := by
  have hzero : InsertMap.set (zeroRatio c) c.id (ratiosOf bases) = ratiosOf (bases ++ [c]) := by
    refine set_map zeroRatio fun b hb heq => ?_
    have hz := (h b hb).zeros
    rw [heq, sub_self, abs_zero] at hz
    norm_num at hz
  have hadd := PalantirIndex.addFeature_ok (x := zeroRatio c) c.id
    (isLevel_levelOf order bases [] (3, 4)) (isLevel_levelOf order bases [] (4, 3))
    (isLevel_levelOf order bases (ratiosOf bases) (6, 2)) (length_group c 3 4) (length_group c 4 3) (length_group c 6 2)
  rw [withWords_levelOf [] (by decide : (3, 4) ∈ levelShapes) h,
    withWords_levelOf [] (by decide : (4, 3) ∈ levelShapes) h,
    withWords_levelOf _ (by decide : (6, 2) ∈ levelShapes) h, hzero] at hadd
  exact hadd

/-! ## What a run keeps -/

/-- **What a run keeps**: the index is a table of the bases, they are dissimilar and counted, and
every record names one of them. -/
structure BasesOK (order : IterOrder (ℚ × ℕ)) (bases : List Chunk) (d : DeltaState (PalantirIndex ℚ)) : Prop where
  index : d.index = indexOf order bases
  apart : bases.Pairwise Dissimilar
  count : d.baseChunkCount = UInt32.ofNat bases.length
  records : ∃ ms, RecordsOK d.storage ms ∧ ∀ m ∈ ms, ∃ b ∈ bases, m.baseChunkId = .ofNat b.id

variable {codec : Codec} {cacheSize : ℕ} {cs : List Chunk} {d : DeltaState (PalantirIndex ℚ)}

/-- `DeltaCompression()` with `palantir`. -/
def newState (order : IterOrder (ℚ × ℕ)) (cacheSize : ℕ) : DeltaState (PalantirIndex ℚ) :=
  { index := .new order, storage := .new cacheSize }

theorem basesOK_new (order : IterOrder (ℚ × ℕ)) (cacheSize : ℕ) : BasesOK order [] (newState order cacheSize) :=
  ⟨rfl, .nil, rfl, [], ⟨rfl, rfl, rfl⟩, by simp⟩

/-- The records after a write. -/
theorem records_write {s s' : Storage} {ms : List ChunkMeta} (h : RecordsOK s ms)
    (hms : ∀ m ∈ ms, ∃ b ∈ bases, m.baseChunkId = .ofNat b.id) {b : Chunk} (hb : b ∈ bases) (type : UInt8) (c : Chunk)
    (hs' : s' = s.writeChunk type b.id c) :
    ∃ ms, RecordsOK s' ms ∧ ∀ m ∈ ms, ∃ b ∈ bases, m.baseChunkId = .ofNat b.id := by
  refine ⟨_, hs' ▸ (h.writeChunk type b.id c).1, fun x hx => ?_⟩
  rcases List.mem_append.1 hx with hx | hx
  · exact hms x hx
  · exact ⟨b, hb, by rw [List.mem_singleton.1 hx]; rfl⟩

/-- A chunk without a match is dissimilar to all bases. -/
theorem BasesOK.dissimilar (h : BasesOK order bases d)
    (ho : Index.getBaseChunkID (PalantirFeature.call (ρ := ℚ) c) d.index = some none) :
    ∀ b ∈ bases, Dissimilar b c := by
  rw [h.index] at ho
  obtain ⟨o, ho', hnone, -⟩ := getBaseChunkID_indexOf order bases c
  exact hnone.1 (Option.some.inj (ho'.symm.trans ho))

/-- **A new base.** -/
theorem BasesOK.addBase (h : BasesOK order bases d) {m m' : FileMeta} {d' : DeltaState (PalantirIndex ℚ)}
    (ho : Index.getBaseChunkID (PalantirFeature.call (ρ := ℚ) c) d.index = some none)
    (ha : d.addChunk (PalantirFeature.call (ρ := ℚ)) c m = some (m', d')) : BasesOK order (bases ++ [c]) d' := by
  have hd := h.dissimilar ho
  rcases (addChunk_cases ha).2 with ⟨index, -, hadd, rfl, -⟩ | ⟨b, _, ho', -⟩
  · rw [h.index] at hadd
    obtain rfl : index = indexOf order (bases ++ [c]) :=
      Option.some.inj (hadd.symm.trans (addFeature_indexOf order hd))
    obtain ⟨ms, hms, hbase⟩ := h.records
    refine ⟨rfl, ?_, ?_, ?_⟩
    · rw [List.pairwise_append]
      exact ⟨h.apart, List.pairwise_singleton _ _, fun b hb c' hc' => by
        rw [List.mem_singleton.1 hc']; exact hd b hb⟩
    · show d.baseChunkCount + 1 = _
      rw [h.count, List.length_append, List.length_singleton, UInt32.ofNat_add]
      rfl
    · refine records_write hms (fun x hx => ?_) (by simp : c ∈ bases ++ [c]) BaseChunk c rfl
      obtain ⟨b, hb, he⟩ := hbase x hx
      exact ⟨b, List.mem_append_left _ hb, he⟩
  · rw [ho] at ho'
    cases ho'

/-- **A delta**, against a base. -/
theorem BasesOK.addDelta (h : BasesOK order bases d) {m m' : FileMeta} {d' : DeltaState (PalantirIndex ℚ)} {b : ℕ}
    (ho : Index.getBaseChunkID (PalantirFeature.call (ρ := ℚ) c) d.index = some (some b))
    (ha : d.addChunk (PalantirFeature.call (ρ := ℚ)) c m = some (m', d')) : BasesOK order bases d' := by
  rcases (addChunk_cases ha).2 with ⟨_, ho', -⟩ | ⟨b', storage, ho', he, rfl, -⟩
  · rw [ho] at ho'
    cases ho'
  · obtain rfl : b = b' := Option.some.inj (Option.some.inj (ho.symm.trans ho'))
    rw [h.index] at ho
    obtain ⟨o, hget, -, hid⟩ := getBaseChunkID_indexOf order bases c
    obtain ⟨base, hbase, rfl⟩ := hid b (Option.some.inj (hget.symm.trans ho))
    obtain ⟨ms, hms, hall⟩ := h.records
    obtain ⟨cache, rfl⟩ := hms.encode he
    exact ⟨h.index, h.apart, h.count, records_write (hms.withCache cache) hall hbase DeltaChunk c rfl⟩

/-- **Every run keeps it.** -/
theorem SeqRun.basesOK (h : SeqRun codec (PalantirFeature.call (ρ := ℚ)) (newState order cacheSize) cs bases d) :
    BasesOK order bases d := by
  induction h with
  | start => exact basesOK_new order cacheSize
  | base _ _ ho ha ih => exact ih.addBase ho ha
  | delta _ _ ho ha ih => exact ih.addDelta ho ha
  | endFile _ hg ih =>
    obtain ⟨ms, hms, hall⟩ := ih.records
    exact ⟨ih.index, ih.apart, ih.count, ms, (hms.groupByBase hg).symm ▸ hms, hall⟩

/-- There are no more groups than bases. -/
theorem BasesOK.size_le (h : BasesOK order bases d) {t t' : Totals} {g : Groups} {s : Storage}
    (hg : d.storage.dividByBase codec t = some (g, t', s)) : g.size ≤ bases.length := by
  obtain ⟨ms, hms, hall⟩ := h.records
  have hsub : g.keys ⊆ bases.map fun b => (UInt32.ofNat b.id).toNat := by
    intro id hid
    obtain ⟨m, hm, rfl⟩ := (hms.dividByBase hg).2 id (Std.TreeMap.mem_keys.1 hid)
    obtain ⟨b, hb, he⟩ := hall m hm
    exact List.mem_map.2 ⟨b, hb, by rw [he]⟩
  have hle := ((Std.TreeMap.nodup_keys (t := g)).subperm hsub).length_le
  rwa [Std.TreeMap.length_keys, List.length_map] at hle

/-- **Bases are pairwise dissimilar.** After any sequence of chunks over any number of files: two bases
differ in every super-feature and their zero ratios are 0.01 apart; the index holds for each base its
features, leading to it, and nothing else; a chunk that is about to be added finds none of its keys
set; and there are at most 101 bases and groups. -/
theorem bases_dissimilar (codec : Codec) (order : IterOrder (ℚ × ℕ)) (cacheSize : ℕ) {cs bases : List Chunk}
    {d : DeltaState (PalantirIndex ℚ)}
    (h : SeqRun codec (PalantirFeature.call (ρ := ℚ)) (newState order cacheSize) cs bases d) :
    bases.Pairwise Dissimilar ∧ d.index = indexOf order bases ∧
      (∀ c, Index.getBaseChunkID (PalantirFeature.call (ρ := ℚ) c) d.index = some none → Unset c d.index) ∧
      d.baseChunkCount.toNat = bases.length ∧ bases.length ≤ 101 ∧
      ∀ t g t' s, d.storage.dividByBase codec t = some (g, t', s) → g.size ≤ 101 := by
  have hok := h.basesOK
  have hlen := length_le_of_dissimilar hok.apart
  refine ⟨hok.apart, hok.index, fun c hc => ?_, ?_, hlen, fun t g t' s hg => (hok.size_le hg).trans hlen⟩
  · have hd := hok.dissimilar hc
    rw [hok.index]
    exact unset_indexOf hd
  · rw [hok.count]
    exact UInt32.toNat_ofNat_of_lt' (lt_of_le_of_lt hlen (by decide))

/-- Two bases, and a delta against the first. -/
theorem bases_dissimilar_two : ∃ d,
    SeqRun .fewBytes (PalantirFeature.call (ρ := ℚ)) (newState (.byInsertion _) 1) [⟨[1], 0⟩, ⟨[0, 33], 1⟩, ⟨[2], 2⟩]
        [⟨[1], 0⟩, ⟨[0, 33], 1⟩] d ∧
      Dissimilar ⟨[1], 0⟩ ⟨[0, 33], 1⟩ ∧ d.index = indexOf (.byInsertion _) [⟨[1], 0⟩, ⟨[0, 33], 1⟩] ∧
      d.baseChunkCount.toNat = 2 := by
  let feature : Chunk → Feature ℚ := PalantirFeature.call
  let m : FileMeta := ⟨"a", 2 ^ 32 - 1, none⟩
  have hrun : (((newState (.byInsertion _) 1).addChunk feature ⟨[1], 0⟩ m).any fun r₁ =>
      decide (Index.getBaseChunkID (feature ⟨[0, 33], 1⟩) r₁.2.index = some none) &&
        (r₁.2.addChunk feature ⟨[0, 33], 1⟩ r₁.1).any fun r₂ =>
          decide (Index.getBaseChunkID (feature ⟨[2], 2⟩) r₂.2.index = some (some 0)) &&
            (r₂.2.addChunk feature ⟨[2], 2⟩ r₂.1).isSome) = true := by decide +kernel
  obtain ⟨⟨m₁, d₁⟩, h₁, hrun⟩ := (Option.any_eq_true _ _).1 hrun
  obtain ⟨hmiss, hrun⟩ := Bool.and_eq_true_iff.1 hrun
  obtain ⟨⟨m₂, d₂⟩, h₂, hrun⟩ := (Option.any_eq_true _ _).1 hrun
  obtain ⟨hhit, hrun⟩ := Bool.and_eq_true_iff.1 hrun
  obtain ⟨⟨m₃, d₃⟩, h₃⟩ := Option.isSome_iff_exists.1 hrun
  have hfirst : Index.getBaseChunkID (feature ⟨[1], 0⟩) (newState (.byInsertion (ℚ × ℕ)) 1).index = some none := rfl
  have hs : SeqRun .fewBytes feature (newState (.byInsertion _) 1) [⟨[1], 0⟩, ⟨[0, 33], 1⟩, ⟨[2], 2⟩]
      [⟨[1], 0⟩, ⟨[0, 33], 1⟩] d₃ :=
    ((SeqRun.start.base (by simp) hfirst h₁).base (by simp) (of_decide_eq_true hmiss) h₂).delta (by simp)
      (of_decide_eq_true hhit) h₃
  obtain ⟨hapart, hindex, -, hcount, -⟩ := bases_dissimilar .fewBytes (.byInsertion _) 1 hs
  exact ⟨d₃, hs, List.rel_of_pairwise_cons hapart List.mem_cons_self, hindex, hcount⟩

end ChunkGrouping
