import ChunkGrouping.Model.DeltaCompression
import ChunkGrouping.Model.FastCDC
import ChunkGrouping.Model.RabinCDC

/-!
# `AddFile` as a fold over the chunks of its file

The chunker does not look at what is done with its chunks, and the rest does not look
at the chunker: the loop of `AddFile` is a drain, then `addChunk` for each chunk
(`addLoop_eq`). What the index answers is a fold of its own (`lookups`).

* `LawfulChunker`: ids are handed out one after the other. Both chunkers are.
* `addFile_cases`: what an `AddFile` that returns has done.
-/

namespace ChunkGrouping

variable {κ ι φ : Type}

/-! ## Ids -/

/-- **A chunker numbers its chunks from its counter.** -/
class LawfulChunker (κ : Type) [Chunker κ] : Prop where
  next_some : ∀ {s s' : κ} {c : Chunk}, Chunker.getNextChunk s = some (some c, s') →
    c.id = Chunker.nextChunkId s ∧ Chunker.nextChunkId s' = nextId (Chunker.nextChunkId s)
  next_none : ∀ {s s' : κ}, Chunker.getNextChunk s = some (none, s') →
    Chunker.nextChunkId s' = Chunker.nextChunkId s
  next_reinit : ∀ (content : FileContent) (s : κ),
    Chunker.nextChunkId (Chunker.reinitWithFile content s).2 = Chunker.nextChunkId s

theorem id_fromMemoryRef {mem : List UInt8} {start size id : ℕ} {c : Chunk}
    (h : Chunk.fromMemoryRef mem start size id = some c) : c.id = id := by
  unfold Chunk.fromMemoryRef at h
  split at h
  · rw [← Option.some.inj h]
  · simp at h

instance : LawfulChunker FastCDC where
  next_some := by
    intro s s' c h
    simp only [Chunker.getNextChunk, FastCDC.getNextChunk] at h
    split at h
    · simp at h
    split at h
    · simp only [Option.bind_eq_bind, Option.bind_eq_some_iff, Option.some.injEq, Prod.mk.injEq] at h
      obtain ⟨c', hc', rfl, rfl⟩ := h
      exact ⟨id_fromMemoryRef hc', rfl⟩
    · simp only [Option.bind_eq_bind, Option.bind_eq_some_iff, Option.some.injEq, Prod.mk.injEq] at h
      obtain ⟨_, _, _, _, c', hc', rfl, rfl⟩ := h
      exact ⟨id_fromMemoryRef hc', rfl⟩
  next_none := by
    intro s s' h
    simp only [Chunker.getNextChunk, FastCDC.getNextChunk] at h
    split at h
    · simp only [Option.some.injEq, Prod.mk.injEq, true_and] at h
      rw [h]
    split at h <;> simp [Option.bind_eq_some_iff] at h
  next_reinit := by
    intro content s
    simp only [Chunker.reinitWithFile, FastCDC.reinitWithFile]
    split <;> rfl

instance : LawfulChunker RabinCDC where
  next_some := by
    intro s s' c h
    simp only [Chunker.getNextChunk, RabinCDC.getNextChunk] at h
    split at h
    · simp at h
    split at h
    · simp only [Option.bind_eq_bind, Option.bind_eq_some_iff, Option.some.injEq, Prod.mk.injEq] at h
      obtain ⟨c', hc', rfl, rfl⟩ := h
      exact ⟨id_fromMemoryRef hc', rfl⟩
    · simp only [Option.bind_eq_bind, Option.bind_eq_some_iff] at h
      obtain ⟨⟨found, v⟩, -, h⟩ := h
      cases found with
      | false => simp at h
      | true =>
        simp only [if_true, Option.bind_eq_some_iff, Option.some.injEq, Prod.mk.injEq] at h
        obtain ⟨c', hc', rfl, rfl⟩ := h
        exact ⟨id_fromMemoryRef hc', rfl⟩
  next_none := by
    intro s s' h
    simp only [Chunker.getNextChunk, RabinCDC.getNextChunk] at h
    split at h
    · simp only [Option.some.injEq, Prod.mk.injEq, true_and] at h
      rw [h]
    split at h
    · simp [Option.bind_eq_some_iff] at h
    · simp only [Option.bind_eq_bind, Option.bind_eq_some_iff] at h
      obtain ⟨⟨found, v⟩, -, h⟩ := h
      cases found with
      | false =>
        simp only [Bool.false_eq_true, if_false, Option.some.injEq, Prod.mk.injEq, true_and] at h
        rw [← h]; rfl
      | true => simp [Option.bind_eq_some_iff] at h
  next_reinit := by
    intro content s
    simp only [Chunker.reinitWithFile, RabinCDC.reinitWithFile]
    split <;> rfl

section Chunker

variable [Chunker κ] [LawfulChunker κ]

/-- **The ids of a drain** go on from the counter. -/
theorem ids_drainLoop : ∀ (fuel : ℕ) (s : κ) {cs : List Chunk} {s' : κ},
    drainLoop fuel s = some (cs, s') →
    cs.map Chunk.id = idsFrom (Chunker.nextChunkId s) cs.length ∧
      Chunker.nextChunkId s' = nextId^[cs.length] (Chunker.nextChunkId s) := by
  intro fuel
  induction fuel with
  | zero => intro s cs s' h; simp [drainLoop] at h
  | succ fuel ih =>
    intro s cs s' h
    simp only [drainLoop, Option.bind_eq_bind, Option.bind_eq_some_iff] at h
    obtain ⟨⟨c, s₁⟩, hc, h⟩ := h
    cases c with
    | none =>
      simp only [Option.some.injEq, Prod.mk.injEq] at h
      obtain ⟨rfl, rfl⟩ := h
      exact ⟨rfl, LawfulChunker.next_none hc⟩
    | some c =>
      simp only [Option.bind_eq_some_iff, Option.some.injEq, Prod.mk.injEq] at h
      obtain ⟨⟨cs', s₂⟩, hd, rfl, rfl⟩ := h
      obtain ⟨hid, hnext⟩ := LawfulChunker.next_some hc
      obtain ⟨hids, hn⟩ := ih s₁ hd
      refine ⟨?_, ?_⟩
      · rw [List.map_cons, hids, hid, hnext]; rfl
      · rw [hn, hnext, List.length_cons, Function.iterate_succ_apply]

theorem ids_drainFile {content : FileContent} {s : κ} {cs : List Chunk} {s' : κ}
    (h : drainFile content s = some (cs, s')) :
    cs.map Chunk.id = idsFrom (Chunker.nextChunkId s) cs.length ∧
      Chunker.nextChunkId s' = nextId^[cs.length] (Chunker.nextChunkId s) := by
  have := ids_drainLoop _ _ h
  rwa [LawfulChunker.next_reinit] at this

end Chunker

/-! ## A chunk -/

/-- The delta is the chunk itself. -/
theorem getDeltaEncodedChunk_fst {s s' : Storage} {c c' : Chunk} {b : ℕ}
    (h : s.getDeltaEncodedChunk c b = some (c', s')) : c' = c := by
  simp only [Storage.getDeltaEncodedChunk, Option.bind_eq_bind, Option.bind_eq_some_iff] at h
  obtain ⟨⟨base, cache⟩, -, h⟩ := h
  cases base with
  | some _ => exact (Prod.mk.inj (Option.some.inj h)).1.symm
  | none =>
    simp only [Option.bind_eq_some_iff, Option.some.injEq, Prod.mk.injEq] at h
    obtain ⟨_, -, _, -, rfl, -⟩ := h
    rfl

variable [Index ι φ]

/-- **What a chunk does**: without a match it is added and written as a base, with one it is written
as a delta. -/
theorem addChunk_cases {feature : Chunk → φ} {c : Chunk} {m m' : FileMeta} {d d' : DeltaState ι}
    (h : d.addChunk feature c m = some (m', d')) :
    m'.startChunkId = (if m.startChunkId = 2 ^ 32 - 1 then c.id else m.startChunkId) ∧
      ((∃ index, Index.getBaseChunkID (feature c) d.index = some none ∧
          Index.addFeature (feature c) c.id d.index = some index ∧
          d' = { d with index }.writeBaseChunk c ∧ m'.endChunkId = m.endChunkId) ∨
        ∃ b storage, Index.getBaseChunkID (feature c) d.index = some (some b) ∧
          d.storage.getDeltaEncodedChunk c b = some (c, storage) ∧
          d' = { d with storage }.writeDeltaChunk c c b ∧ m'.endChunkId = some c.id) := by
  simp only [DeltaState.addChunk, Option.bind_eq_bind, Option.bind_eq_some_iff] at h
  obtain ⟨o, ho, h⟩ := h
  cases o with
  | none =>
    simp only [Option.bind_eq_some_iff, Option.some.injEq, Prod.mk.injEq] at h
    obtain ⟨index, hadd, rfl, rfl⟩ := h
    refine ⟨by split <;> rfl, .inl ⟨index, ho, hadd, rfl, by split <;> rfl⟩⟩
  | some b =>
    simp only [Option.bind_eq_some_iff, Option.some.injEq, Prod.mk.injEq] at h
    obtain ⟨⟨c', storage⟩, hdelta, rfl, rfl⟩ := h
    obtain rfl := getDeltaEncodedChunk_fst hdelta
    exact ⟨by dsimp only; split <;> rfl, .inr ⟨b, storage, ho, hdelta, rfl, rfl⟩⟩

/-! ## The loop -/

/-- `addChunk` for each chunk. -/
def addChunks (feature : Chunk → φ) : List Chunk → FileMeta → DeltaState ι →
    Option (FileMeta × DeltaState ι)
  | [], fileMeta, d => some (fileMeta, d)
  | c :: cs, fileMeta, d => do
    let (fileMeta, d) ← d.addChunk feature c fileMeta
    addChunks feature cs fileMeta d

/-- What the index answers to a sequence of chunks, those without a match being added to it. -/
def lookups (feature : Chunk → φ) : List Chunk → ι → Option (List (Option ℕ) × ι)
  | [], idx => some ([], idx)
  | c :: cs, idx => do
    match ← Index.getBaseChunkID (feature c) idx with
    | none =>
      let idx ← Index.addFeature (feature c) c.id idx
      let (os, idx) ← lookups feature cs idx
      some (none :: os, idx)
    | some b =>
      let (os, idx) ← lookups feature cs idx
      some (some b :: os, idx)

section Lookups

variable {feature : Chunk → φ} {c : Chunk} {cs : List Chunk} {os : List (Option ℕ)} {index index₁ index' : ι}

theorem lookups_none (ho : Index.getBaseChunkID (feature c) index = some none)
    (hadd : Index.addFeature (feature c) c.id index = some index₁)
    (hos : lookups feature cs index₁ = some (os, index')) :
    lookups feature (c :: cs) index = some (none :: os, index') := by
  simp [lookups, ho, hadd, hos]

theorem lookups_some {b : ℕ} (ho : Index.getBaseChunkID (feature c) index = some (some b))
    (hos : lookups feature cs index = some (os, index')) :
    lookups feature (c :: cs) index = some (some b :: os, index') := by
  simp [lookups, ho, hos]

end Lookups

variable [Chunker κ]

/-- **The loop is a drain, then a fold.** -/
theorem addLoop_eq (feature : Chunk → φ) : ∀ (fuel : ℕ) (m : FileMeta) (k : κ) (d : DeltaState ι),
    addLoop feature fuel m k d = (drainLoop fuel k).bind fun r =>
      (addChunks feature r.1 m d).map fun x => (x.1, r.2, x.2) := by
  intro fuel
  induction fuel with
  | zero => intro m k d; rfl
  | succ fuel ih =>
    intro m k d
    unfold addLoop drainLoop
    simp only [Option.bind_eq_bind]
    cases hn : Chunker.getNextChunk k with
    | none => rfl
    | some r =>
      obtain ⟨c, k'⟩ := r
      cases c with
      | none => rfl
      | some c =>
        simp only [Option.bind_some, ih, Option.bind_assoc, addChunks, Option.bind_eq_bind]
        cases ha : d.addChunk feature c m with
        | none =>
          simp only [Option.bind_none, Option.map_none]
          cases drainLoop fuel k' <;> rfl
        | some x => simp only [Option.bind_some]

/-- **An `AddFile` that returns** drained its file, added its chunks and grouped the store. -/
theorem addFile_cases {codec : Codec} {feature : Chunk → φ} {fileName : String} {content : FileContent}
    {d d' : DeltaCompression κ ι} (h : d.addFile codec feature fileName content = some d') :
    ∃ cs k m s g, drainFile content d.chunker = some (cs, k) ∧
      addChunks feature cs ⟨fileName, 2 ^ 32 - 1, none⟩ d.toDeltaState = some (m, s) ∧
      s.storage.groupByBase codec 16 s.totals = some g ∧
      d'.toDeltaState = { s with storage := g.storage, totals := g.totals } ∧ d'.chunker = k ∧
      d'.fileMetas = d.fileMetas ++ [m] := by
  simp only [DeltaCompression.addFile, addLoop_eq, Option.bind_eq_bind, Option.bind_eq_some_iff,
    Option.map_eq_some_iff, Option.some.injEq] at h
  obtain ⟨⟨m, k, s⟩, ⟨⟨cs, k'⟩, hd, ⟨m', s'⟩, ha, he⟩, g, hg, rfl⟩ := h
  simp only [Prod.mk.injEq] at he
  obtain ⟨rfl, rfl, rfl⟩ := he
  exact ⟨cs, k', m', s', g, hd, ha, hg, rfl, rfl, rfl⟩

end ChunkGrouping
