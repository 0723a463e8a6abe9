import ChunkGrouping.Model.Pipeline
import ChunkGrouping.Proof.Sequential

/-!
# One chunk through the stages

What the stages of the pipeline do with a chunk, whoever runs them.

* `chunkMatchWork_ok`: what was matched has a type.
* `chunkWriteWork_ok`: a context is counted once, and stored by the calls of its type.
* `processChunk_cases`: what a chunk does to the members; `exists_processChunk`: when it can.
* `classify`: the stages before the writer, which do not look at the store;
  `processChunks_classify`: the writer then does what they say.
-/

namespace ChunkGrouping

open InsertMap

variable {ι φ : Type} [Index ι φ] {feature : Chunk → φ}

/-! ## Contexts -/

/-- **What is matched has a type.** -/
theorem chunkMatchWork_ok {x y : Context φ} {index index' : ι} (h : chunkMatchWork x index = some (y, index')) :
    y.chunk = x.chunk ∧
      (y.chunkType = BaseChunk ∨ y.chunkType = DeltaChunk ∨ y.chunkType = DuplicateChunk) := by
  unfold chunkMatchWork at h
  split at h
  · simp only [Option.bind_eq_bind, Option.bind_eq_some_iff] at h
    obtain ⟨o, -, h⟩ := h
    cases o with
    | none =>
      simp only [Option.bind_eq_some_iff, Option.some.injEq, Prod.mk.injEq] at h
      obtain ⟨_, -, rfl, -⟩ := h
      exact ⟨rfl, .inl rfl⟩
    | some b =>
      simp only [Option.some.injEq, Prod.mk.injEq] at h
      obtain ⟨rfl, -⟩ := h
      exact ⟨rfl, .inr (.inl rfl)⟩
  · rename_i hdup
    obtain ⟨rfl, -⟩ := Prod.mk.inj (Option.some.inj h)
    exact ⟨rfl, .inr (.inr (not_not.1 hdup))⟩

/-- The chunk a call stores. -/
def StoreOp.chunkWritten : StoreOp → Option Chunk
  | writeBase chunk => some chunk
  | writeDelta chunk _ => some chunk
  | writeDuplicate chunk _ => some chunk
  | _ => none

/-- The calls of `storage_` for a context. -/
def callsFor (x : Context φ) : List StoreOp :=
  if x.chunkType = DuplicateChunk then [.writeDuplicate x.chunk x.baseChunkId]
  else if x.chunkType = BaseChunk then [.writeBase x.chunk]
  else [.encode x.chunk x.baseChunkId, .writeDelta x.chunk x.baseChunkId]

omit [Index ι φ] in
/-- **A write** counts one context and makes the calls of its type. -/
theorem chunkWriteWork_ok {x : Context φ} {w w' : Writer} (h : chunkWriteWork x w = some w') :
    w'.processedChunk = w.processedChunk + 1 ∧ w'.calls = w.calls ++ callsFor x := by
  simp only [chunkWriteWork, Option.bind_eq_bind, Option.bind_eq_some_iff, Option.some.injEq] at h
  obtain ⟨w₁, h, rfl⟩ := h
  unfold Writer.switchType at h
  unfold callsFor
  split at h
  · rename_i hdup
    simp only [Writer.duplicate, Option.bind_eq_bind, Option.bind_eq_some_iff, Option.some.injEq] at h
    obtain ⟨s, -, rfl⟩ := h
    rw [if_pos hdup]
    exact ⟨rfl, rfl⟩
  rename_i hdup
  rw [if_neg hdup]
  split at h
  · rename_i hbase
    rw [← Option.some.inj h, if_pos hbase]
    exact ⟨rfl, rfl⟩
  rename_i hbase
  rw [if_neg hbase]
  split at h
  · simp only [Writer.delta, Option.bind_eq_bind, Option.bind_eq_some_iff, Option.some.injEq] at h
    obtain ⟨⟨c, s⟩, hc, rfl⟩ := h
    obtain rfl := getDeltaEncodedChunk_fst hc
    exact ⟨rfl, rfl⟩
  · simp at h

omit [Index ι φ] in
/-- One of them stores the chunk. -/
theorem chunkWritten_callsFor (x : Context φ) : (callsFor x).filterMap StoreOp.chunkWritten = [x.chunk] := by
  unfold callsFor
  split
  · rfl
  split <;> rfl

omit [Index ι φ] in
/-- **What the write worker does**, by the type of the context. -/
theorem chunkWriteWork_cases {x : Context φ} {w w' : Writer} (h : chunkWriteWork x w = some w') :
    (x.chunkType = DuplicateChunk ∧ w.storage.writeDuplicateChunk x.chunk x.baseChunkId = some w'.storage) ∨
      (x.chunkType = BaseChunk ∧ w'.storage = w.storage.writeBaseChunk x.chunk) ∨
      (x.chunkType = DeltaChunk ∧ ∃ s, w.storage.getDeltaEncodedChunk x.chunk x.baseChunkId = some (x.chunk, s) ∧
        w'.storage = (s.writeDeltaChunk x.chunk x.baseChunkId).2) := by
  simp only [chunkWriteWork, Option.bind_eq_bind, Option.bind_eq_some_iff, Option.some.injEq] at h
  obtain ⟨w₁, h, rfl⟩ := h
  unfold Writer.switchType at h
  split at h
  · rename_i hdup
    simp only [Writer.duplicate, Option.bind_eq_bind, Option.bind_eq_some_iff, Option.some.injEq] at h
    obtain ⟨s, hs, rfl⟩ := h
    exact .inl ⟨hdup, hs⟩
  split at h
  · rename_i hbase
    rw [← Option.some.inj h]
    exact .inr (.inl ⟨hbase, rfl⟩)
  split at h
  · rename_i hdelta
    simp only [Writer.delta, Option.bind_eq_bind, Option.bind_eq_some_iff, Option.some.injEq] at h
    obtain ⟨⟨c, s⟩, hc, rfl⟩ := h
    obtain rfl := getDeltaEncodedChunk_fst hc
    exact .inr (.inr ⟨hdelta, s, hc, rfl⟩)
  · cases h

variable [Inhabited φ]

omit [Index ι φ] in
/-- **What the dedup worker does**: a content under another id makes a duplicate of it. -/
theorem dedupWork_cases (c : Chunk) (d : Dedup) :
    (∃ id, get? (Sha1.hash c.buf) d.mp = some id ∧ id ≠ c.id ∧ dedupWork (Context.new c : Context φ) d =
        ({ (Context.new c : Context φ) with chunkType := DuplicateChunk, baseChunkId := id }, d)) ∨
      ((∀ id, get? (Sha1.hash c.buf) d.mp = some id → id = c.id) ∧
        dedupWork (Context.new c : Context φ) d = (Context.new c, (d.processChunk c).2)) := by
  unfold dedupWork Dedup.processChunk
  cases hget : get? (Sha1.hash c.buf) d.mp with
  | none => exact .inr ⟨by simp, by simp [Context.new, hget]⟩
  | some id =>
    by_cases hid : id = c.id
    · exact .inr ⟨fun id' h => (Option.some.inj h).symm.trans hid, by simp [Context.new, hget, hid]⟩
    · exact .inl ⟨id, rfl, hid, by simp [Context.new, hget, hid]⟩

/-- **What a chunk does to the members**: it is a duplicate of what `dedup_` has under another id, a
base that no entry of the index matches, or a delta against the one that does. -/
theorem processChunk_cases {m m' : Members ι} {c : Chunk} (h : processChunk feature m c = some m') :
    (∃ id, get? (Sha1.hash c.buf) m.dedup.mp = some id ∧ id ≠ c.id ∧ m'.dedup = m.dedup ∧ m'.index = m.index ∧
        m.writer.storage.writeDuplicateChunk c id = some m'.writer.storage ∧
        m'.writer.calls = m.writer.calls ++ [.writeDuplicate c id]) ∨
      ((∀ id, get? (Sha1.hash c.buf) m.dedup.mp = some id → id = c.id) ∧
        m'.dedup = (m.dedup.processChunk c).2 ∧
        ((Index.getBaseChunkID (feature c) m.index = some none ∧
            Index.addFeature (feature c) c.id m.index = some m'.index ∧
            m'.writer.storage = m.writer.storage.writeBaseChunk c ∧
            m'.writer.calls = m.writer.calls ++ [.writeBase c]) ∨
          ∃ b s, Index.getBaseChunkID (feature c) m.index = some (some b) ∧ m'.index = m.index ∧
            m.writer.storage.getDeltaEncodedChunk c b = some (c, s) ∧
            m'.writer.storage = (s.writeDeltaChunk c b).2 ∧
            m'.writer.calls = m.writer.calls ++ [.encode c b, .writeDelta c b])) := by
  have hne : (0 : UInt8) ≠ DuplicateChunk := by decide
  simp only [processChunk, Option.bind_eq_bind, Option.bind_eq_some_iff, Option.some.injEq] at h
  obtain ⟨⟨x, index⟩, hmatch, w, hw, rfl⟩ := h
  have hcalls := (chunkWriteWork_ok hw).2
  -- the write worker goes by the type that the workers before it gave
  have hcases := chunkWriteWork_cases hw
  unfold callsFor at hcalls
  rcases dedupWork_cases (φ := φ) c m.dedup with ⟨id, hget, hid, hd⟩ | ⟨hget, hd⟩ <;> rw [hd] at hmatch ⊢
  · -- the stages between leave a duplicate alone
    simp only [featureCalcWork, chunkMatchWork, ne_eq, not_true_eq_false, if_false, Option.some.injEq,
      Prod.mk.injEq] at hmatch
    obtain ⟨rfl, rfl⟩ := hmatch
    rcases hcases with ⟨-, hs⟩ | ⟨ht, -⟩ | ⟨ht, -⟩
    · exact .inl ⟨id, hget, hid, rfl, rfl, hs, hcalls⟩
    · exact absurd ht (by decide : (DuplicateChunk : UInt8) ≠ BaseChunk)
    · exact absurd ht (by decide : (DuplicateChunk : UInt8) ≠ DeltaChunk)
  · refine .inr ⟨hget, rfl, ?_⟩
    have hfeat : featureCalcWork feature (Context.new c : Context φ) =
        { (Context.new c : Context φ) with feature := feature c } := by
      simp [featureCalcWork, Context.new, hne]
    rw [hfeat] at hmatch
    unfold chunkMatchWork at hmatch
    rw [if_pos (by simpa [Context.new] using hne)] at hmatch
    obtain ⟨o, ho, hmatch⟩ := Option.bind_eq_some_iff.1 hmatch
    cases o with
    | none =>
      obtain ⟨index', hadd, hx⟩ := Option.bind_eq_some_iff.1 hmatch
      obtain ⟨rfl, rfl⟩ := Prod.mk.inj (Option.some.inj hx)
      rcases hcases with ⟨ht, -⟩ | ⟨-, hs⟩ | ⟨ht, -⟩
      · exact absurd ht (by decide : (BaseChunk : UInt8) ≠ DuplicateChunk)
      · exact .inl ⟨ho, hadd, hs, hcalls⟩
      · exact absurd ht (by decide : (BaseChunk : UInt8) ≠ DeltaChunk)
    | some b =>
      obtain ⟨rfl, rfl⟩ := Prod.mk.inj (Option.some.inj hmatch)
      rcases hcases with ⟨ht, -⟩ | ⟨ht, -⟩ | ⟨-, s, he, hs⟩
      · exact absurd ht (by decide : (DeltaChunk : UInt8) ≠ DuplicateChunk)
      · exact absurd ht (by decide : (DeltaChunk : UInt8) ≠ BaseChunk)
      · exact .inr ⟨b, s, ho, rfl, he, hs, hcalls⟩

/-- **A chunk gets through** when the index answers and the storage can read what it is asked for. -/
theorem exists_processChunk {m : Members ι} {c : Chunk} {o : Option ℕ}
    (hget : Index.getBaseChunkID (feature c) m.index = some o)
    (hadd : ∃ index, Index.addFeature (feature c) c.id m.index = some index)
    (hdup : ∀ id, get? (Sha1.hash c.buf) m.dedup.mp = some id → id ≠ c.id →
      ∃ s, m.writer.storage.writeDuplicateChunk c id = some s)
    (hdelta : ∀ b, o = some b → ∃ r, m.writer.storage.getDeltaEncodedChunk c b = some r) :
    ∃ m', processChunk feature m c = some m' := by
  have hne : (0 : UInt8) ≠ DuplicateChunk := by decide
  have hbase : (BaseChunk : UInt8) ≠ DuplicateChunk := by decide
  have hdel : (DeltaChunk : UInt8) ≠ DuplicateChunk := by decide
  have hdel' : (DeltaChunk : UInt8) ≠ BaseChunk := by decide
  unfold processChunk
  apply Option.isSome_iff_exists.1
  rcases dedupWork_cases (φ := φ) c m.dedup with ⟨id, hid, hne', hd⟩ | ⟨-, hd⟩ <;> rw [hd]
  · obtain ⟨s, hs⟩ := hdup id hid hne'
    simp only [featureCalcWork, chunkMatchWork, ne_eq, not_true_eq_false, if_false, Option.bind_eq_bind,
      Option.bind_some, chunkWriteWork, Writer.switchType, if_true, Writer.duplicate, Context.new, hs,
      Option.isSome_some]
  · cases o with
    | none =>
      obtain ⟨index, hindex⟩ := hadd
      simp only [featureCalcWork, chunkMatchWork, Context.new, ne_eq, hne, not_false_eq_true, if_true, hget, hindex,
        Option.bind_eq_bind, Option.bind_some, chunkWriteWork, Writer.switchType, hbase, if_false]
      rfl
    | some b =>
      obtain ⟨⟨c', s⟩, hs⟩ := hdelta b rfl
      simp only [featureCalcWork, chunkMatchWork, Context.new, ne_eq, hne, not_false_eq_true, if_true, hget,
        Option.bind_eq_bind, Option.bind_some, chunkWriteWork, Writer.switchType, hdel, hdel', if_false,
        Writer.delta, hs]
      rfl

theorem chunk_of_stages {c : Chunk} {d : Dedup} {index index' : ι} {x : Context φ}
    (h : chunkMatchWork (featureCalcWork feature (dedupWork (Context.new c) d).1) index = some (x, index')) :
    x.chunk = c := by
  have hd : (dedupWork (Context.new c : Context φ) d).1.chunk = c := by
    unfold dedupWork
    dsimp only
    split <;> rfl
  have hf : ∀ y : Context φ, (featureCalcWork feature y).chunk = y.chunk := by
    intro y
    unfold featureCalcWork
    split <;> rfl
  rw [(chunkMatchWork_ok h).1, hf, hd]

/-! ## Chunk after chunk -/

/-- Dedup, feature and match for each chunk. -/
def classify (feature : Chunk → φ) : List Chunk → Dedup → ι → Option (List (Context φ) × Dedup × ι)
  | [], dedup, index => some ([], dedup, index)
  | c :: cs, dedup, index => do
    let (x, dedup) := dedupWork (.new c) dedup
    let (x, index) ← chunkMatchWork (featureCalcWork feature x) index
    let (xs, dedup, index) ← classify feature cs dedup index
    some (x :: xs, dedup, index)

theorem chunk_classify {cs : List Chunk} : ∀ {d d' : Dedup} {index index' : ι} {xs : List (Context φ)},
    classify feature cs d index = some (xs, d', index') → xs.map Context.chunk = cs := by
  induction cs with
  | nil =>
    intro d d' index index' xs h
    obtain ⟨rfl, -⟩ := Prod.mk.inj (Option.some.inj h)
    rfl
  | cons c cs ih =>
    intro d d' index index' xs h
    simp only [classify, Option.bind_eq_bind, Option.bind_eq_some_iff, Option.some.injEq, Prod.mk.injEq] at h
    obtain ⟨⟨x, index₁⟩, hx, ⟨xs', d₁, index₂⟩, hxs, rfl, -⟩ := h
    rw [List.map_cons, chunk_of_stages hx, ih hxs]

/-- **The writer does what the stages before it say**, one context after the other. -/
theorem processChunks_classify {cs : List Chunk} : ∀ {m m' : Members ι}, processChunks feature cs m = some m' →
    ∃ xs, classify feature cs m.dedup m.index = some (xs, m'.dedup, m'.index) ∧
      m'.writer.processedChunk = m.writer.processedChunk + xs.length ∧
      m'.writer.calls = m.writer.calls ++ xs.flatMap callsFor := by
  induction cs with
  | nil =>
    intro m m' h
    rw [← Option.some.inj h]
    exact ⟨[], rfl, rfl, by simp⟩
  | cons c cs ih =>
    intro m m' h
    unfold processChunks at h ih
    rw [List.foldlM_cons, Option.bind_eq_bind, Option.bind_eq_some_iff] at h
    obtain ⟨m₁, hc, hcs⟩ := h
    simp only [processChunk, Option.bind_eq_bind, Option.bind_eq_some_iff, Option.some.injEq] at hc
    obtain ⟨⟨x, index⟩, hm, writer, hw, rfl⟩ := hc
    obtain ⟨hcount, hcalls⟩ := chunkWriteWork_ok hw
    obtain ⟨xs, hxs, hcount', hcalls'⟩ := ih hcs
    refine ⟨x :: xs, ?_, ?_, ?_⟩
    · dsimp only at hxs
      simp only [classify, hm, hxs, Option.bind_eq_bind, Option.bind_some]
    · rw [hcount', hcount, List.length_cons]
      omega
    · rw [hcalls', hcalls, List.flatMap_cons, List.append_assoc]

/-- **Each chunk is counted and stored, in order.** -/
theorem processChunks_ok {cs : List Chunk} {m m' : Members ι} (h : processChunks feature cs m = some m') :
    m'.writer.processedChunk = m.writer.processedChunk + cs.length ∧
      m'.writer.calls.filterMap StoreOp.chunkWritten = m.writer.calls.filterMap StoreOp.chunkWritten ++ cs := by
  obtain ⟨xs, hxs, hcount, hcalls⟩ := processChunks_classify h
  have hchunks := chunk_classify hxs
  refine ⟨by rw [hcount, ← hchunks, List.length_map], ?_⟩
  rw [hcalls, List.filterMap_append, List.filterMap_flatMap, ← hchunks]
  simp only [chunkWritten_callsFor, List.map_eq_flatMap]

end ChunkGrouping
