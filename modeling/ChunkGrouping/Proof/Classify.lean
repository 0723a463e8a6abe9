import ChunkGrouping.Proof.AddFile
import ChunkGrouping.Proof.BestFitIndex
import ChunkGrouping.Proof.FileRange
import ChunkGrouping.Proof.PalantirIndex
import ChunkGrouping.Proof.Stages

/-!
# The two modes classify alike

The pipeline answers a content that it has seen from `dedup_`, the sequential mode asks
the index again. In a lawful index a content that was matched or added keeps matching,
so the answer is a base id, and the index does not change.

* `Logged`: an index that remembers the `AddFeature` calls.
* `addChunks_calls`: the sequential loop makes the storage calls of the index's answers.
* `Alike`: what both modes have after the same chunks; `alike_step` for one more,
  `alike_run` for any number.
* `modes_classify_alike`: any sequence of chunks.
-/

namespace ChunkGrouping

open InsertMap

variable {ι φ : Type}

/-! ## `AddFeature` calls -/

/-- An index, and the calls of `AddFeature` so far. -/
structure Logged (ι φ : Type) where
  index : ι
  calls : List (φ × ℕ) := []

variable [Index ι φ]

instance : Index (Logged ι φ) φ where
  getBaseChunkID f l := Index.getBaseChunkID f l.index
  addFeature f id l := (Index.addFeature f id l.index).map fun index => ⟨index, l.calls ++ [(f, id)]⟩

instance [LawfulIndex ι φ] : LawfulIndex (Logged ι φ) φ where
  Ready l := LawfulIndex.Ready φ l.index
  Fits f := LawfulIndex.Fits ι f
  known l := LawfulIndex.known φ l.index
  get_ok h hf := LawfulIndex.get_ok h hf
  add_ok := by
    intro l f id h hf
    obtain ⟨index, hadd, hready, hknown, hself, hkeep⟩ := LawfulIndex.add_ok id h hf
    exact ⟨⟨index, l.calls ++ [(f, id)]⟩, by simp [Index.addFeature, hadd], hready, hknown, hself, hkeep⟩

/-! ## The sequential mode -/

/-- The storage calls of the sequential loop for the index's answers. -/
def callsOf : List Chunk → List (Option ℕ) → List StoreOp
  | c :: cs, none :: os => .writeBase c :: callsOf cs os
  | c :: cs, some b :: os => .encode c b :: .writeDelta c b :: callsOf cs os
  | _, _ => []

/-- **The sequential loop does what the answers say.** -/
theorem addChunks_calls (codec : Codec) (feature : Chunk → φ) (cs : List Chunk) :
    ∀ {m m' : FileMeta} {d d' : DeltaState ι}, addChunks feature cs m d = some (m', d') →
      ∃ os, lookups feature cs d.index = some (os, d'.index) ∧
        runOps codec (callsOf cs os) d.storage = some d'.storage := by
  induction cs with
  | nil =>
    intro m m' d d' h
    obtain ⟨-, rfl⟩ := Prod.mk.inj (Option.some.inj h)
    exact ⟨[], rfl, rfl⟩
  | cons c cs ih =>
    intro m m' d d' h
    simp only [addChunks, Option.bind_eq_bind, Option.bind_eq_some_iff] at h
    obtain ⟨⟨m₁, d₁⟩, hc, h⟩ := h
    obtain ⟨os, hos, hrun⟩ := ih h
    unfold runOps at hrun ⊢
    obtain ⟨-, ⟨index, ho, hadd, rfl, -⟩ | ⟨b, s, ho, hdelta, rfl, -⟩⟩ := addChunk_cases hc
    · refine ⟨none :: os, lookups_none ho hadd hos, ?_⟩
      rw [callsOf, List.foldlM_cons]
      exact hrun
    · refine ⟨some b :: os, lookups_some ho hos, ?_⟩
      rw [callsOf, List.foldlM_cons, StoreOp.run, hdelta, Option.map_some, Option.bind_eq_bind,
        Option.bind_some, List.foldlM_cons]
      exact hrun

/-! ## Both modes -/

variable [Inhabited φ]

/-- **The two modes agree on a chunk**: a base in both, a delta with the same base in both, or a
duplicate in the pipeline and a delta in the sequential mode. -/
def Agree (o : Option ℕ) (x : Context φ) : Prop :=
  (x.chunkType = BaseChunk ∧ o = none) ∨ (x.chunkType = DeltaChunk ∧ o = some x.baseChunkId) ∨
    (x.chunkType = DuplicateChunk ∧ o.isSome)

variable [LawfulIndex ι φ]

/-- **What both modes have** after the chunks `pre`: the contents seen match, and are in `dedup_`. -/
structure Alike (feature : Chunk → φ) (pre : List Chunk) (d : Dedup) (index : ι) : Prop where
  ready : LawfulIndex.Ready φ index
  found : ∀ c ∈ pre, ∃ b, Index.getBaseChunkID (feature c) index = some (some b)
  first : ∀ digest id, get? digest d.mp = some id → ∃ c ∈ pre, Sha1.hash c.buf = digest ∧ c.id = id
  seen : ∀ c ∈ pre, (get? (Sha1.hash c.buf) d.mp).isSome

variable {feature : Chunk → φ} {pre : List Chunk} {d : Dedup} {index : ι} {c : Chunk}

omit [Inhabited φ] in
/-- The map of `dedup_` after a new content. -/
theorem Alike.insert (h : Alike feature pre d index) {index' : ι} (hready : LawfulIndex.Ready φ index')
    (hfound : ∀ c' ∈ pre ++ [c], ∃ b, Index.getBaseChunkID (feature c') index' = some (some b)) :
    Alike feature (pre ++ [c]) ⟨set (Sha1.hash c.buf) c.id d.mp⟩ index' := by
  refine ⟨hready, hfound, fun digest id hid => ?_, fun c' hc' => ?_⟩
  · rw [get?_set] at hid
    by_cases hd : Sha1.hash c.buf = digest
    · rw [if_pos (by simpa using hd)] at hid
      exact ⟨c, by simp, hd, Option.some.inj hid⟩
    · rw [if_neg (by simpa using hd)] at hid
      obtain ⟨c', hc', hh⟩ := h.first digest id hid
      exact ⟨c', List.mem_append_left _ hc', hh⟩
  · rcases List.mem_append.1 hc' with hc' | hc'
    · exact isSome_get?_alter _ _ _ (h.seen c' hc')
    · rw [List.mem_singleton.1 hc']
      exact isSome_get?_alter_self _ _ _ _

omit [Inhabited φ] in
/-- A content seen before changes nothing. -/
theorem Alike.again (h : Alike feature pre d index) {b : ℕ}
    (hb : Index.getBaseChunkID (feature c) index = some (some b))
    (hseen : (get? (Sha1.hash c.buf) d.mp).isSome) : Alike feature (pre ++ [c]) d index where
  ready := h.ready
  found := List.forall_mem_append.2 ⟨h.found, List.forall_mem_singleton.2 ⟨b, hb⟩⟩
  first digest id hid := by
    obtain ⟨x, hx, hh⟩ := h.first digest id hid
    exact ⟨x, List.mem_append_left _ hx, hh⟩
  seen := List.forall_mem_append.2 ⟨h.seen, List.forall_mem_singleton.2 hseen⟩

/-- **One chunk in both modes.** -/
theorem alike_step (hfits : ∀ c, LawfulIndex.Fits ι (feature c))
    (hcontent : ∀ c c' : Chunk, c.buf = c'.buf → feature c = feature c') (h : Alike feature pre d index)
    (hid : ∀ c' ∈ pre, c'.id ≠ c.id) (hsha : ∀ c' ∈ pre, Sha1.hash c'.buf = Sha1.hash c.buf → c'.buf = c.buf) :
    ∃ o x d' index', Index.getBaseChunkID (feature c) index = some o ∧
      (o = none → Index.addFeature (feature c) c.id index = some index') ∧ (o.isSome → index' = index) ∧
      (dedupWork (Context.new c : Context φ) d).2 = d' ∧
      chunkMatchWork (featureCalcWork feature (dedupWork (Context.new c : Context φ) d).1) index =
        some (x, index') ∧
      Agree o x ∧ Alike feature (pre ++ [c]) d' index' := by
  obtain ⟨o, ho, -⟩ := LawfulIndex.get_ok h.ready (hfits c)
  cases hget : get? (Sha1.hash c.buf) d.mp with
  | some id =>
    -- seen before: the first chunk with this content matches, so this one does
    obtain ⟨c', hc', hh, rfl⟩ := h.first _ _ hget
    have hfeat := hcontent c' c (hsha c' hc' hh)
    obtain ⟨b, hb⟩ := h.found c' hc'
    rw [hfeat] at hb
    obtain rfl : o = some b := Option.some.inj (ho.symm.trans hb)
    have hdedup : dedupWork (Context.new c : Context φ) d =
        ({ (Context.new c : Context φ) with chunkType := DuplicateChunk, baseChunkId := c'.id }, d) := by
      simp [dedupWork, Dedup.processChunk, Context.new, hget, hid c' hc']
    refine ⟨some b, { (Context.new c : Context φ) with chunkType := DuplicateChunk, baseChunkId := c'.id }, d,
      index, ho, by simp, fun _ => rfl, by rw [hdedup], by
      rw [hdedup]; simp [featureCalcWork, chunkMatchWork], .inr (.inr ⟨rfl, rfl⟩), h.again hb ?_⟩
    rw [hget]
    rfl
  | none =>
    -- a new content: the index decides in both modes
    have hdup : (0 : UInt8) ≠ DuplicateChunk := by decide
    have hdedup : dedupWork (Context.new c : Context φ) d =
        (Context.new c, ⟨set (Sha1.hash c.buf) c.id d.mp⟩) := by
      simp [dedupWork, Dedup.processChunk, Context.new, hget]
    have hfeat : featureCalcWork feature (Context.new c : Context φ) =
        { (Context.new c : Context φ) with feature := feature c } := by
      simp [featureCalcWork, Context.new, hdup]
    cases o with
    | none =>
      obtain ⟨index', hadd, hready, -, hself, hkeep⟩ := LawfulIndex.add_ok c.id h.ready (hfits c)
      refine ⟨none, _, _, index', ho, fun _ => hadd, by simp, by rw [hdedup], by
        rw [hdedup, hfeat]; simp [chunkMatchWork, Context.new, hdup, ho, hadd]; rfl,
        .inl ⟨rfl, rfl⟩,
        h.insert hready (List.forall_mem_append.2 ⟨fun c' hc' => ?_, List.forall_mem_singleton.2 hself⟩)⟩
      -- an added feature hides none of those before
      obtain ⟨b, hb⟩ := h.found c' hc'
      exact hkeep (feature c') b (hfits c') hb
    | some b =>
      refine ⟨some b, _, _, index, ho, by simp, fun _ => rfl, by rw [hdedup], by
        rw [hdedup, hfeat]; simp [chunkMatchWork, Context.new, hdup, ho]; rfl,
        .inr (.inl ⟨rfl, rfl⟩),
        h.insert h.ready (List.forall_mem_append.2 ⟨h.found, List.forall_mem_singleton.2 ⟨b, ho⟩⟩)⟩

/-- **Any number of chunks in both modes.** -/
theorem alike_run (hfits : ∀ c, LawfulIndex.Fits ι (feature c))
    (hcontent : ∀ c c' : Chunk, c.buf = c'.buf → feature c = feature c') (cs : List Chunk) :
    ∀ {pre : List Chunk} {d : Dedup} {index : ι}, Alike feature pre d index →
      ((pre ++ cs).map Chunk.id).Nodup →
      (∀ c ∈ pre ++ cs, ∀ c' ∈ pre ++ cs, Sha1.hash c.buf = Sha1.hash c'.buf → c.buf = c'.buf) →
      ∃ os xs d' index', lookups feature cs index = some (os, index') ∧
        classify feature cs d index = some (xs, d', index') ∧ List.Forall₂ Agree os xs := by
  induction cs with
  | nil => intro pre d index _ _ _; exact ⟨[], [], d, index, rfl, rfl, .nil⟩
  | cons c cs ih =>
    intro pre d index h hids hsha
    have hid : ∀ c' ∈ pre, c'.id ≠ c.id := by
      intro c' hc' heq
      rw [List.map_append, List.map_cons] at hids
      exact (List.disjoint_of_nodup_append hids) (List.mem_map_of_mem hc') (by rw [heq]; exact List.mem_cons_self)
    have hcoll : ∀ c' ∈ pre, Sha1.hash c'.buf = Sha1.hash c.buf → c'.buf = c.buf := fun c' hc' =>
      hsha c' (List.mem_append_left _ hc') c (by simp)
    obtain ⟨o, x, d₁, index₁, ho, hnone, hsome, hd, hx, hagree, h₁⟩ := alike_step hfits hcontent h hid hcoll
    obtain ⟨os, xs, d', index', hos, hxs, hall⟩ := ih h₁ (by simpa using hids) (by simpa using hsha)
    refine ⟨o :: os, x :: xs, d', index', ?_, ?_, .cons hagree hall⟩
    · cases o with
      | none => exact lookups_none ho (hnone rfl) hos
      | some b => exact lookups_some ho (by rw [← hsome rfl]; exact hos)
    · simp only [classify, hx, hd, hxs, Option.bind_eq_bind, Option.bind_some]

/-- **The two modes classify alike.** On the chunks `cs`, for a working feature and index pair, the
pipeline's contexts agree with the index's answers in the sequential mode chunk by chunk, and both
have made the same `AddFeature` calls. The answers are those the sequential loop writes by, and it
returns on chunks that fit their records; the contexts are those the write worker gets. -/
theorem modes_classify_alike (p : FeatureIndex ι φ) (cs : List Chunk)
    (hids : cs.map Chunk.id = List.range cs.length)
    (hsha : ∀ c ∈ cs, ∀ c' ∈ cs, Sha1.hash c.buf = Sha1.hash c'.buf → c.buf = c'.buf) :
    ∃ os xs dedup index, lookups p.feature cs (⟨p.index, []⟩ : Logged ι φ) = some (os, index) ∧
      classify p.feature cs {} (⟨p.index, []⟩ : Logged ι φ) = some (xs, dedup, index) ∧
      xs.map Context.chunk = cs ∧ List.Forall₂ Agree os xs ∧
      (∀ codec m m' d d', d.index = (⟨p.index, []⟩ : Logged ι φ) →
        addChunks p.feature cs m d = some (m', d') →
        d'.index = index ∧ runOps codec (callsOf cs os) d.storage = some d'.storage) ∧
      (∀ cacheSize m, 2 ^ 20 ≤ (ChunkCache.new cacheSize).maxMemoryUsage → cs.length ≤ 2 ^ 32 →
        (∀ c ∈ cs, c.len ≤ 65535) →
        (addChunks p.feature cs m
          { index := (⟨p.index, []⟩ : Logged ι φ), storage := .new cacheSize }).isSome) ∧
      ∀ w m', processChunks p.feature cs ⟨{}, (⟨p.index, []⟩ : Logged ι φ), w⟩ = some m' →
        m'.index = index ∧ m'.dedup = dedup ∧ m'.writer.calls = w.calls ++ xs.flatMap callsFor := by
  have hnew : Alike p.feature [] {} (⟨p.index, []⟩ : Logged ι φ) :=
    ⟨p.ready, by simp, fun digest id h => by simp [get?] at h, by simp⟩
  obtain ⟨os, xs, dedup, index, hos, hxs, hall⟩ := alike_run (ι := Logged ι φ) p.fits p.content cs hnew
    (by rw [List.nil_append, hids]; exact List.nodup_range) hsha
  refine ⟨os, xs, dedup, index, hos, hxs, chunk_classify hxs, hall, ?_, ?_, ?_⟩
  · intro codec m m' d d' hd h
    obtain ⟨os', hos', hrun⟩ := addChunks_calls codec p.feature cs h
    rw [hd, hos] at hos'
    obtain ⟨rfl, rfl⟩ := Prod.mk.inj (Option.some.inj hos')
    exact ⟨rfl, hrun⟩
  · intro cacheSize m hc hcount hlen
    have hok : SeqOK φ ({ index := (⟨p.index, []⟩ : Logged ι φ), storage := .new cacheSize } : DeltaState _) [] :=
      ⟨logOK_new hc, fun k w h => by simp at h, p.ready, fun id h => absurd h (p.empty id)⟩
    have hrange : (List.range cs.length).map (fun i => (0 + i) % 2 ^ 32) = (List.range cs.length).map id :=
      List.map_congr_left fun i hi => by
        have := List.mem_range.1 hi
        rw [Nat.zero_add, Nat.mod_eq_of_lt (by omega), id]
    have hnext : AllNext 0 cs :=
      ⟨by rw [hids, idsFrom_eq (by omega), hrange, List.map_id], by omega, hlen⟩
    obtain ⟨m', d', us, h, -⟩ := addChunks_ok (ι := Logged ι φ) p.fits cs [] _ m hok hnext
    rw [h]
    rfl
  · intro w m' h
    obtain ⟨xs', hxs', -, hcalls⟩ := processChunks_classify h
    rw [hxs] at hxs'
    obtain ⟨rfl, hrest⟩ := Prod.mk.inj (Option.some.inj hxs')
    obtain ⟨rfl, rfl⟩ := Prod.mk.inj hrest
    exact ⟨rfl, rfl, hcalls⟩

/-- The same content twice, with both pairs. -/
theorem modes_classify_alike_twice :
    (∃ os xs dedup index,
      lookups (PalantirFeature.call (ρ := ℚ)) [⟨[1], 0⟩, ⟨[1], 1⟩]
        (⟨.new (.byInsertion (ℚ × ℕ)), []⟩ : Logged (PalantirIndex ℚ) (Feature ℚ)) = some (os, index) ∧
      classify (PalantirFeature.call (ρ := ℚ)) [⟨[1], 0⟩, ⟨[1], 1⟩] {}
        (⟨.new (.byInsertion (ℚ × ℕ)), []⟩ : Logged (PalantirIndex ℚ) (Feature ℚ)) = some (xs, dedup, index) ∧
      List.Forall₂ Agree os xs) ∧
    ∃ os xs dedup index,
      lookups (OdessSubfeatures.call (ρ := ℚ)) [⟨[1], 0⟩, ⟨[1], 1⟩]
        (⟨.new (.byInsertion (ℕ × ℕ)) 12, []⟩ : Logged BestFitIndex (Feature ℚ)) = some (os, index) ∧
      classify (OdessSubfeatures.call (ρ := ℚ)) [⟨[1], 0⟩, ⟨[1], 1⟩] {}
        (⟨.new (.byInsertion (ℕ × ℕ)) 12, []⟩ : Logged BestFitIndex (Feature ℚ)) = some (xs, dedup, index) ∧
      List.Forall₂ Agree os xs := by
  have hids : ([⟨[1], 0⟩, ⟨[1], 1⟩] : List Chunk).map Chunk.id = List.range 2 := by decide
  have hbuf : ∀ c ∈ ([⟨[1], 0⟩, ⟨[1], 1⟩] : List Chunk), c.buf = [1] := by decide
  have hsha : ∀ c ∈ ([⟨[1], 0⟩, ⟨[1], 1⟩] : List Chunk), ∀ c' ∈ ([⟨[1], 0⟩, ⟨[1], 1⟩] : List Chunk),
      Sha1.hash c.buf = Sha1.hash c'.buf → c.buf = c'.buf :=
    fun c hc c' hc' _ => (hbuf c hc).trans (hbuf c' hc').symm
  refine ⟨?_, ?_⟩
  · obtain ⟨os, xs, dedup, index, hos, hxs, -, hall, -⟩ :=
      modes_classify_alike (FeatureIndex.palantir (ρ := ℚ) (.byInsertion _)) _ hids hsha
    exact ⟨os, xs, dedup, index, hos, hxs, hall⟩
  · obtain ⟨os, xs, dedup, index, hos, hxs, -, hall, -⟩ :=
      modes_classify_alike (FeatureIndex.bestfit (ρ := ℚ) (.byInsertion _)) _ hids hsha
    exact ⟨os, xs, dedup, index, hos, hxs, hall⟩

end ChunkGrouping
