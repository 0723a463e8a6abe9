import ChunkGrouping.Proof.ChunkCache
import ChunkGrouping.Proof.Completion
import ChunkGrouping.Proof.Duplicate
import ChunkGrouping.Proof.FastCDC
import ChunkGrouping.Proof.Kept

/-!
# One content, again and again

The chunks of a content that repeats: the first is stored, the others are duplicates of
it, until the ids wrap. Chunk `2^32` has the id of the first, and a chunk that `dedup_`
has under its own id is no duplicate: it is stored once more.

* `Repeated`: the members after `n` repetitions; `Repeated.again` for one more.
* `repeats_wrap`: the records when the ids have wrapped.
* `exists_exec_repeats`: a file of one byte value, cut at a fixed size, runs to its end.
-/

namespace ChunkGrouping

open InsertMap CFile BoundedPipeline PipelineRun

variable {ι φ : Type} [Index ι φ] [LawfulIndex ι φ] [Inhabited φ] {buf : List UInt8} {n cacheSize : ℕ}
  {m : Members ι}

/-- The record of the first chunk. -/
def firstRecord (buf : List UInt8) : ChunkMeta := (recordAt 0 BaseChunk 0 buf).info

/-- The record of a repetition. -/
def againRecord (buf : List UInt8) : ChunkMeta := duplicateRecord (firstRecord buf).offset 0 buf.length

/-- **The members after a chunk and `n` repetitions.** -/
structure Repeated (φ : Type) [Index ι φ] [LawfulIndex ι φ] (buf : List UInt8) (cacheSize n : ℕ) (m : Members ι) :
    Prop where
  seen : get? (Sha1.hash buf) m.dedup.mp = some 0
  ready : LawfulIndex.Ready φ m.index
  known : ∀ id, LawfulIndex.known φ m.index id → id = 0
  records : RecordsOK m.writer.storage (firstRecord buf :: List.replicate n (againRecord buf))
  data : m.writer.storage.dataFile.bytes = buf
  cache : m.writer.storage.cache = .new cacheSize

/-- A duplicate write does not ask the cache. -/
theorem writeDuplicate_cache {s s' : Storage} {c : Chunk} {b : ℕ} (h : s.writeDuplicateChunk c b = some s') :
    s'.cache = s.cache := by
  simp only [Storage.writeDuplicateChunk, Option.bind_eq_bind, Option.bind_eq_some_iff, Option.some.injEq] at h
  obtain ⟨_, -, rfl⟩ := h
  rfl

/-- **The first chunk** is a base. -/
theorem repeated_first (p : FeatureIndex ι φ) (buf : List UInt8) (cacheSize : ℕ) :
    ∃ m, processChunk p.feature ⟨{}, p.index, { storage := .new cacheSize }⟩ ⟨buf, 0⟩ = some m ∧
      Repeated φ buf cacheSize 0 m := by
  obtain ⟨o, hget, hknown⟩ := LawfulIndex.get_ok p.ready (p.fits ⟨buf, 0⟩)
  obtain rfl : o = none := Option.eq_none_iff_forall_ne_some.2 fun id h => p.empty id (hknown id h)
  obtain ⟨index, hadd, hready, hknown', -⟩ := LawfulIndex.add_ok 0 p.ready (p.fits ⟨buf, 0⟩)
  have hrec : RecordsOK (Storage.new cacheSize) [] := (storeOK_new cacheSize).records
  obtain ⟨m, hm⟩ := exists_processChunk (m := ⟨{}, p.index, { storage := .new cacheSize }⟩) hget ⟨index, hadd⟩
    (fun id h => by simp [get?] at h) (fun b h => by simp at h)
  refine ⟨m, hm, ?_⟩
  rcases processChunk_cases hm with ⟨id, h, -⟩ | ⟨-, hd, ⟨-, hadd', hs, -⟩ | ⟨b, s, h, -⟩⟩
  · simp [get?] at h
  · obtain rfl : index = m.index := Option.some.inj (hadd.symm.trans hadd')
    obtain ⟨hrec', hdata⟩ := hrec.writeChunk BaseChunk 0 ⟨buf, 0⟩
    refine ⟨?_, hready, fun id h => (hknown' id h).resolve_left (p.empty id), ?_, ?_, ?_⟩
    · rw [hd]
      exact (get?_set _ _ _ _).trans (if_pos (by simp))
    · rw [hs]
      exact hrec'
    · rw [hs]
      exact hdata
    · rw [hs]
      rfl
  · rw [hget] at h
    cases h

omit [Inhabited φ] in
/-- The first chunk can be read back, and kept in the cache. -/
theorem Repeated.encode (h : Repeated φ buf cacheSize n m) (hlen : buf.length < 2 ^ 16)
    (hcache : 2 ^ 16 ≤ (ChunkCache.new cacheSize).maxMemoryUsage) (c : Chunk) :
    ∃ r, m.writer.storage.getDeltaEncodedChunk c 0 = some r := by
  have hempty : CacheOK (.new cacheSize) [] := cacheOK_new (by omega)
  obtain ⟨hmiss, hok⟩ := get_miss hempty (show ∀ e ∈ ([] : List Slot), e.id ≠ 0 by simp)
  have hsize : (firstRecord buf).size.toNat = buf.length := UInt16.toNat_ofNat_of_lt' hlen
  have hbytes : ∀ cache, recordBytes { m.writer.storage with cache } (firstRecord buf) = buf := by
    intro cache
    unfold recordBytes slice
    rw [hsize]
    simp [h.data, firstRecord, recordAt]
  have hread := fun cache => getChunkContent_eq (h.records.withCache cache) (k := 0) (m := firstRecord buf) rfl
  obtain ⟨cache, hadd, -⟩ := add_ok hok (show ∀ e ∈ ([] : List Slot), e.id ≠ 0 by simp)
    (show Chunk.len ⟨buf, 0⟩ < (ChunkCache.new cacheSize).maxMemoryUsage by simp only [Chunk.len]; omega)
  unfold Storage.getDeltaEncodedChunk
  rw [h.cache, hmiss]
  simp only [Option.bind_eq_bind, Option.bind_some, hread, hbytes, hsize, if_true, hadd]
  exact ⟨_, rfl⟩

/-- **One more chunk** gets through, under any id. -/
theorem Repeated.next (h : Repeated φ buf cacheSize n m) (p : FeatureIndex ι φ) (hlen : buf.length < 2 ^ 16)
    (hcache : 2 ^ 16 ≤ (ChunkCache.new cacheSize).maxMemoryUsage) (id : ℕ) :
    ∃ m', processChunk p.feature m ⟨buf, id⟩ = some m' := by
  have hfit := p.fits ⟨buf, id⟩
  obtain ⟨o, hget, hknown⟩ := LawfulIndex.get_ok h.ready hfit
  obtain ⟨index, hadd, -⟩ := LawfulIndex.add_ok id h.ready hfit
  refine exists_processChunk hget ⟨index, hadd⟩ (fun b hb _ => ?_) fun b hb => ?_
  · obtain rfl : 0 = b := Option.some.inj (h.seen.symm.trans hb)
    obtain ⟨s, hs, -⟩ := writeDuplicate_ok h.records (b := 0) (m := firstRecord buf) rfl ⟨buf, id⟩
    exact ⟨s, hs⟩
  · obtain rfl : b = 0 := h.known b (hknown b hb)
    exact h.encode hlen hcache _

/-- **A repetition** under another id is a duplicate of the first. -/
theorem Repeated.again (h : Repeated φ buf cacheSize n m) {feature : Chunk → φ} {id : ℕ} (hid : id ≠ 0)
    {m' : Members ι} (hp : processChunk feature m ⟨buf, id⟩ = some m') : Repeated φ buf cacheSize (n + 1) m' := by
  rcases processChunk_cases hp with ⟨b, hb, -, hd, hi, hw, -⟩ | ⟨hnew, -⟩
  · obtain rfl : 0 = b := Option.some.inj (h.seen.symm.trans hb)
    obtain ⟨s, hs, hdata, hrec⟩ := writeDuplicate_ok h.records (b := 0) (m := firstRecord buf) rfl ⟨buf, id⟩
    obtain rfl : s = m'.writer.storage := Option.some.inj (hs.symm.trans hw)
    refine ⟨by rw [hd]; exact h.seen, by rw [hi]; exact h.ready, fun x hx => h.known x (hi ▸ hx), ?_,
      by rw [hdata]; exact h.data, (writeDuplicate_cache hw).trans h.cache⟩
    rw [List.replicate_succ']
    exact hrec
  · exact absurd (hnew 0 h.seen).symm hid

/-- **Under the id of the first** it is stored once more. -/
theorem Repeated.wrap (h : Repeated φ buf cacheSize n m) {feature : Chunk → φ} {m' : Members ι}
    (hp : processChunk feature m ⟨buf, 0⟩ = some m') :
    ∃ r, r.type ≠ DuplicateChunk ∧
      RecordsOK m'.writer.storage (firstRecord buf :: List.replicate n (againRecord buf) ++ [r]) := by
  rcases processChunk_cases hp with ⟨b, hb, hne, -⟩ | ⟨-, -, ⟨-, -, hw, -⟩ | ⟨b, s, -, -, he, hw, -⟩⟩
  · obtain rfl : 0 = b := Option.some.inj (h.seen.symm.trans hb)
    exact absurd rfl hne
  · refine ⟨_, ?_, by rw [hw]; exact (h.records.writeChunk BaseChunk 0 ⟨buf, 0⟩).1⟩
    exact (by decide : (BaseChunk : UInt8) ≠ DuplicateChunk)
  · obtain ⟨cache, rfl⟩ := h.records.encode he
    refine ⟨_, ?_, by rw [hw]; exact ((h.records.withCache cache).writeChunk DeltaChunk b ⟨buf, 0⟩).1⟩
    exact (by decide : (DeltaChunk : UInt8) ≠ DuplicateChunk)

/-! ## Runs -/

/-- `k` chunks with the bytes `buf`, numbered on from 0. -/
def repeats (buf : List UInt8) (k : ℕ) : List Chunk := (idsFrom 0 k).map (Chunk.mk buf)

theorem repeats_succ (buf : List UInt8) (k : ℕ) : repeats buf (k + 1) = repeats buf k ++ [⟨buf, k % 2 ^ 32⟩] := by
  unfold repeats
  rw [idsFrom_add, iterate_nextId (by omega), Nat.zero_add, List.map_append]
  rfl

/-- The chunks are those, when they have the bytes and the ids. -/
theorem eq_repeats {cs : List Chunk} {k : ℕ} (hbuf : cs.map Chunk.buf = List.replicate k buf)
    (hids : cs.map Chunk.id = idsFrom 0 k) : cs = repeats buf k := by
  unfold repeats
  have hall : ∀ c ∈ cs, c = Chunk.mk buf c.id := fun c hc => by
    have hb : c.buf = buf := List.eq_of_mem_replicate (hbuf ▸ List.mem_map_of_mem hc)
    rw [← hb]
  rw [← hids, List.map_map]
  calc
    cs = cs.map id := (List.map_id cs).symm
    _ = cs.map (Chunk.mk buf ∘ Chunk.id) := List.map_congr_left hall

/-- **As long as the ids do not wrap**, all but the first are duplicates. -/
theorem repeats_ok (p : FeatureIndex ι φ) (buf : List UInt8) (cacheSize : ℕ) (hlen : buf.length < 2 ^ 16)
    (hcache : 2 ^ 16 ≤ (ChunkCache.new cacheSize).maxMemoryUsage) (hn : n < 2 ^ 32) :
    ∃ m, processChunks p.feature (repeats buf (n + 1)) ⟨{}, p.index, { storage := .new cacheSize }⟩ = some m ∧
      Repeated φ buf cacheSize n m := by
  unfold processChunks
  induction n with
  | zero =>
    obtain ⟨m, hm, h⟩ := repeated_first p buf cacheSize
    refine ⟨m, ?_, h⟩
    show (processChunk p.feature _ ⟨buf, 0⟩ >>= some) = some m
    rw [hm]
    rfl
  | succ n ih =>
    obtain ⟨m, hm, h⟩ := ih (by omega)
    obtain ⟨m', hm'⟩ := h.next p hlen hcache (n + 1)
    refine ⟨m', ?_, h.again (by omega) hm'⟩
    rw [repeats_succ, List.foldlM_append, hm, Nat.mod_eq_of_lt hn]
    show (processChunk p.feature m ⟨buf, n + 1⟩ >>= some) = some m'
    rw [hm']
    rfl

/-- **When they wrap**, two of the records are none of duplicates. -/
theorem repeats_wrap (p : FeatureIndex ι φ) (buf : List UInt8) (cacheSize : ℕ) (hlen : buf.length < 2 ^ 16)
    (hcache : 2 ^ 16 ≤ (ChunkCache.new cacheSize).maxMemoryUsage) :
    ∃ m ms r, processChunks p.feature (repeats buf (2 ^ 32 + 1))
        ⟨{}, p.index, { storage := .new cacheSize }⟩ = some m ∧
      RecordsOK m.writer.storage ms ∧ ms.length = 2 ^ 32 + 1 ∧ ms[0]? = some (firstRecord buf) ∧
      ms[2 ^ 32]? = some r ∧ r.type ≠ DuplicateChunk := by
  obtain ⟨n, hn⟩ : ∃ n, n + 1 = 2 ^ 32 := ⟨2 ^ 32 - 1, by omega⟩
  obtain ⟨m, hm, h⟩ := repeats_ok p buf cacheSize (n := n) hlen hcache (by omega)
  obtain ⟨m', hm'⟩ := h.next p hlen hcache 0
  obtain ⟨r, hr, hrec⟩ := h.wrap hm'
  refine ⟨m', _, r, ?_, hrec, ?_, rfl, ?_, hr⟩
  · unfold processChunks at hm ⊢
    rw [← hn, repeats_succ, List.foldlM_append, hm, hn, Nat.mod_self]
    show (processChunk p.feature m ⟨buf, 0⟩ >>= some) = some m'
    rw [hm']
    rfl
  · simp [hn]
  · rw [← hn, List.getElem?_append_right (by simp)]
    simp

/-- **A file of one byte value** is cut into those chunks. -/
theorem drainFile_repeats {size : ℕ} (hsize : 1 ≤ size) (hmax : size < 2 ^ 31 - 1) (mask : UInt64) (n : ℕ) (b : UInt8) :
    ∃ k, drainFile (some (List.replicate (n * size) b)) (FastCDC.new size size mask) =
      some (repeats (List.replicate size b) n, k) := by
  obtain ⟨cs, k, hd, hchop, hids, -⟩ := drainFile_fast hsize le_rfl hmax (FastOK.new size size mask) rfl
    (some (List.replicate (n * size) b))
  have hbuf := (fastFileOK_of_chop le_rfl hchop).replicate hsize
  have hlen : cs.length = n := by simpa using congrArg List.length hbuf
  rw [hlen] at hids
  exact ⟨k, by rw [hd, eq_repeats hbuf hids]⟩

/-- **A schedule for it**, when its chunks get through. -/
theorem exists_exec_repeats (p : FeatureIndex ι φ) (size : ℕ) (hsize : 1 ≤ size) (hmax : size < 2 ^ 31 - 1)
    (mask : UInt64) (n : ℕ) (b : UInt8) (name : String)
    (hp : processChunks p.feature (repeats (List.replicate size b) n)
      ⟨{}, p.index, { storage := .new cacheSize }⟩ = some m) :
    ∃ (schedule : List Actor) (r : PipelineRun FastCDC ι φ) (k : FastCDC),
      PipelineRun.exec p.feature schedule (.new (FastCDC.new size size mask) p.index cacheSize
        [(name, some (List.replicate (n * size) b))]) = some r ∧ r.files = [] ∧ r.pipe.AllReturned ∧
      DrainsFiles [some (List.replicate (n * size) b)] (FastCDC.new size size mask)
        [repeats (List.replicate size b) n] k ∧ membersOf r.pipe.loc = m := by
  obtain ⟨k, hd⟩ := drainFile_repeats hsize hmax mask n b
  unfold drainFile drain at hd
  obtain ⟨schedule, r, hr, -, hfiles, hret, -, -, hm⟩ := exists_exec p.feature
    (r := .new (FastCDC.new size size mask) p.index cacheSize [(name, some (List.replicate (n * size) b))])
    rfl rfl (fun _ _ => rfl) hd hp
  exact ⟨schedule, r, k, hr, hfiles, hret, .concat (.nil _) hd, hm⟩

end ChunkGrouping
