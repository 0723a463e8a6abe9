import ChunkGrouping.Model.StorageRun
import ChunkGrouping.Proof.ChunkCache
import ChunkGrouping.Proof.Group

/-!
# Reading back what was written

`LogOK s ws`: the store `s` is the log `ws` of everything written so far: the bytes
one after the other in `data_`, a record each in `meta_`, and a cache that holds
chunks of the log.

* `run_ok`: each call keeps `LogOK`, a read with the same log, a write with one more.
* `storage_readback`: any run.
-/

namespace ChunkGrouping

open CFile DList

/-- The call is allowed when `ws` was written: no duplicates, chunks numbered in write order, reads
only of what was written. -/
def StoreOp.Allowed (ws : List Written) : StoreOp → Prop
  | writeBase chunk => Next ws chunk
  | writeDelta chunk b => Next ws chunk ∧ b < 2 ^ 32
  | writeDuplicate _ _ => False
  | get id => id < ws.length
  | encode _ b => b < ws.length
  | divide _ => True
  | group groupSize _ => 0 < groupSize ∧ ∀ w ∈ ws, w.baseChunkId < ws.length

/-- Every call of the run is allowed when its turn comes. -/
def AllAllowed : List Written → List StoreOp → Prop
  | _, [] => True
  | ws, op :: ops => op.Allowed ws ∧ AllAllowed (ws ++ op.written) ops

/-- The records of a log, `offset` being the first one's. -/
def recordsFrom : ℕ → List Written → List Record
  | _, [] => []
  | offset, w :: ws =>
    recordAt offset w.type w.baseChunkId w.bytes :: recordsFrom (offset + w.bytes.length) ws

/-- All bytes of a log. -/
def logBytes (ws : List Written) : List UInt8 := ws.flatMap Written.bytes

theorem length_recordsFrom (offset : ℕ) (ws : List Written) :
    (recordsFrom offset ws).length = ws.length := by
  induction ws generalizing offset with
  | nil => rfl
  | cons w ws ih => rw [recordsFrom, List.length_cons, ih, List.length_cons]

theorem recordsFrom_append (vs us : List Written) (offset : ℕ) :
    recordsFrom offset (vs ++ us) =
      recordsFrom offset vs ++ recordsFrom (offset + (logBytes vs).length) us := by
  induction vs generalizing offset with
  | nil => rfl
  | cons v vs ih =>
    rw [List.cons_append, recordsFrom, ih, recordsFrom, List.cons_append]
    unfold logBytes
    rw [List.flatMap_cons, List.length_append, Nat.add_assoc]

theorem getElem?_recordsFrom (ws : List Written) (k offset : ℕ) :
    (recordsFrom offset ws)[k]? = ws[k]?.map fun w =>
      recordAt (offset + (logBytes (ws.take k)).length) w.type w.baseChunkId w.bytes := by
  induction ws generalizing k offset with
  | nil => rfl
  | cons w ws ih =>
    cases k with
    | zero => simp [recordsFrom, logBytes]
    | succ k =>
      rw [recordsFrom, List.getElem?_cons_succ, ih, List.getElem?_cons_succ, List.take_succ_cons]
      simp only [logBytes, List.flatMap_cons, List.length_append, Nat.add_assoc]

theorem length_logBytes_le {ws : List Written} (h : ∀ w ∈ ws, w.bytes.length ≤ 65535) :
    (logBytes ws).length ≤ ws.length * 65535 := by
  induction ws with
  | nil => simp [logBytes]
  | cons w ws ih =>
    have hw := h w List.mem_cons_self
    have := ih fun x hx => h x (List.mem_cons_of_mem _ hx)
    unfold logBytes at this ⊢
    rw [List.flatMap_cons, List.length_append, List.length_cons]
    omega

/-- **The cache holds chunks of the log.** -/
structure CacheLog (c : ChunkCache) (ws : List Written) : Prop where
  large : 2 ^ 20 ≤ c.maxMemoryUsage
  entries : ∃ es, CacheOK c es ∧ ∀ e ∈ es, ∃ w, ws[e.id]? = some w ∧ e.chunk = ⟨w.bytes, e.id⟩

/-- **The store is the log `ws`.** -/
structure LogOK (s : Storage) (ws : List Written) : Prop where
  store : StoreOK s (recordsFrom 0 ws)
  data : s.dataFile.bytes = logBytes ws
  short : ∀ w ∈ ws, w.bytes.length ≤ 65535
  base : ∀ w ∈ ws, w.baseChunkId < 2 ^ 32
  count : ws.length ≤ 2 ^ 32
  cache : CacheLog s.cache ws

variable {s : Storage} {ws : List Written}

theorem logOK_new {cacheSize : ℕ} (hc : 2 ^ 20 ≤ (ChunkCache.new cacheSize).maxMemoryUsage) :
    LogOK (.new cacheSize) [] :=
  ⟨storeOK_new cacheSize, rfl, by simp, by simp, by simp, hc, [], cacheOK_new (by omega), by simp⟩

theorem CacheLog.append {c : ChunkCache} (h : CacheLog c ws) (w : Written) : CacheLog c (ws ++ [w]) := by
  obtain ⟨hl, es, hes, hmem⟩ := h
  refine ⟨hl, es, hes, fun e he => ?_⟩
  obtain ⟨w', hw', hc⟩ := hmem e he
  exact ⟨w', by rw [List.getElem?_append_left (List.getElem?_eq_some_iff.1 hw').1, hw'], hc⟩

/-- The offsets do not overflow. -/
theorem LogOK.length_logBytes_lt (h : LogOK s ws) (k : ℕ) : (logBytes (ws.take k)).length < 2 ^ 64 := by
  have h1 := length_logBytes_le fun w hw => h.short w (List.mem_of_mem_take (i := k) hw)
  have h2 : (ws.take k).length ≤ ws.length := List.length_take_le' k ws
  have h3 := h.count
  omega

/-- Record `k` of a log: its bytes start behind those before. -/
theorem record_log {k : ℕ} {w : Written} (hk : ws[k]? = some w) :
    (recordsFrom 0 ws)[k]? =
      some (recordAt (logBytes (ws.take k)).length w.type w.baseChunkId w.bytes) := by
  rw [getElem?_recordsFrom, hk, Nat.zero_add]; rfl

/-- **The store is the log `ws`**, whatever the cache holds and however many chunks there are. -/
structure StoreLog (s : Storage) (ws : List Written) : Prop where
  store : StoreOK s (recordsFrom 0 ws)
  data : s.dataFile.bytes = logBytes ws
  short : ∀ w ∈ ws, w.bytes.length ≤ 65535
  base : ∀ w ∈ ws, w.baseChunkId < 2 ^ 32

theorem storeLog_new (cacheSize : ℕ) : StoreLog (.new cacheSize) [] :=
  ⟨storeOK_new cacheSize, rfl, by simp, by simp⟩

theorem LogOK.storeLog (h : LogOK s ws) : StoreLog s ws := ⟨h.store, h.data, h.short, h.base⟩

theorem StoreLog.withCache (h : StoreLog s ws) (cache : ChunkCache) : StoreLog { s with cache } ws :=
  ⟨h.store.withCache cache, h.data, h.short, h.base⟩

theorem StoreLog.getChunkContent (h : StoreLog s ws) {k : ℕ} {w : Written} (hk : ws[k]? = some w) :
    s.getChunkContent k = some (⟨w.bytes, k⟩, s) := getChunkContent_ok h.store (record_log hk)

/-- **A write** adds to the log. -/
theorem StoreLog.write (h : StoreLog s ws) {chunk : Chunk} (hlen : chunk.len ≤ 65535)
    (hlt : (logBytes ws).length < 2 ^ 64) (type : UInt8) {b : ℕ} (hb : b < 2 ^ 32) :
    StoreLog (s.writeChunk type b chunk) (ws ++ [⟨type, b, chunk.buf⟩]) ∧
      (s.writeChunk type b chunk).cache = s.cache := by
  obtain ⟨hst, hd, hc⟩ := writeChunk_ok h.store type b chunk (by omega) (by rw [h.data]; exact hlt)
  refine ⟨⟨?_, ?_, ?_, ?_⟩, hc⟩
  · rw [recordsFrom_append, Nat.zero_add, ← h.data]; exact hst
  · rw [hd, h.data]; simp [logBytes]
  · exact List.forall_mem_append.2 ⟨h.short, List.forall_mem_singleton.2 hlen⟩
  · exact List.forall_mem_append.2 ⟨h.base, List.forall_mem_singleton.2 hb⟩

/-- **A write.** -/
theorem writeChunk_log (h : LogOK s ws) {chunk : Chunk} (hn : Next ws chunk) (type : UInt8) {b : ℕ}
    (hb : b < 2 ^ 32) :
    LogOK (s.writeChunk type b chunk) (ws ++ [⟨type, b, chunk.buf⟩]) := by
  have hlt := h.length_logBytes_lt ws.length
  rw [List.take_length] at hlt
  obtain ⟨hl, hc⟩ := h.storeLog.write hn.len hlt type hb
  refine ⟨hl.store, hl.data, hl.short, hl.base, ?_, by rw [hc]; exact h.cache.append _⟩
  have h1 := hn.id
  have h2 := hn.id_lt
  rw [List.length_append, List.length_singleton]
  omega

/-- **A lookup in the cache** that hits returns the chunk of that id. -/
theorem cacheGet_log {c : ChunkCache} (h : CacheLog c ws) (id : ℕ) :
    (∃ w c', ws[id]? = some w ∧ c.get id = some (some ⟨w.bytes, id⟩, c') ∧ CacheLog c' ws) ∨
    ∃ c', c.get id = some (none, c') ∧ c'.maxMemoryUsage = c.maxMemoryUsage ∧
      ∃ es, CacheOK c' es ∧ (∀ e ∈ es, e.id ≠ id) ∧
        ∀ e ∈ es, ∃ w, ws[e.id]? = some w ∧ e.chunk = ⟨w.bytes, e.id⟩ := by
  obtain ⟨hl, es, hes, hmem⟩ := h
  by_cases hid : ∃ e ∈ es, e.id = id
  · obtain ⟨e, he, rfl⟩ := hid
    obtain ⟨xs, ys, rfl⟩ := List.append_of_mem he
    obtain ⟨c', hg, hes', hmax⟩ := get_hit hes
    obtain ⟨w, hw, hch⟩ := hmem e he
    refine .inl ⟨w, c', hw, by rw [hg, hch], by rw [hmax]; exact hl, _, hes', fun x hx => hmem x ?_⟩
    exact List.perm_middle.mem_iff.2 hx
  · have hne : ∀ e ∈ es, e.id ≠ id := fun e he h => hid ⟨e, he, h⟩
    obtain ⟨hg, hes'⟩ := get_miss hes hne
    exact .inr ⟨_, hg, rfl, es, hes', hne, hmem⟩

/-- **With a cache of the log encoding returns**, and the cache is one of the log again. -/
theorem StoreLog.encode_ok (h : StoreLog s ws) (hc : CacheLog s.cache ws) (chunk : Chunk) {b : ℕ}
    (hb : b < ws.length) :
    ∃ cache, s.getDeltaEncodedChunk chunk b = some (chunk, { s with cache }) ∧ CacheLog cache ws := by
  have hw : ws[b]? = some ws[b] := List.getElem?_eq_getElem hb
  unfold Storage.getDeltaEncodedChunk
  rcases cacheGet_log hc b with ⟨w, c', -, hg, hc'⟩ | ⟨c', hg, hmax, es, hes, hne, hmem⟩
  · exact ⟨c', by simp [hg], hc'⟩
  · have hlarge : 2 ^ 20 ≤ c'.maxMemoryUsage := hmax ▸ hc.large
    have hlen := h.short ws[b] (List.getElem_mem hb)
    obtain ⟨c'', hadd, hmax', hes'⟩ :=
      add_ok hes hne (show Chunk.len ⟨ws[b].bytes, b⟩ < _ by simp only [Chunk.len]; omega)
    refine ⟨c'', ?_, hmax' ▸ hlarge, _, hes', fun e he => ?_⟩
    · simp [hg, (h.withCache c').getChunkContent hw, hadd]
    · rcases List.mem_cons.1 he with rfl | he
      · exact ⟨_, hw, rfl⟩
      · exact hmem e (mem_of_mem_evicted he)

theorem encode_log (h : LogOK s ws) (chunk : Chunk) {b : ℕ} (hb : b < ws.length) :
    ∃ s', s.getDeltaEncodedChunk chunk b = some (chunk, s') ∧ LogOK s' ws := by
  obtain ⟨cache, he, hc⟩ := h.storeLog.encode_ok h.cache chunk hb
  exact ⟨_, he, h.store.withCache cache, h.data, h.short, h.base, h.count, hc⟩

/-- **Each call keeps the log**, and adds what it writes. -/
theorem run_ok (codec : Codec) (h : LogOK s ws) {op : StoreOp} (ha : op.Allowed ws) :
    ∃ s', op.run codec s = some s' ∧ LogOK s' (ws ++ op.written) := by
  cases op with
  | writeBase chunk =>
    exact ⟨_, rfl, writeChunk_log h ha BaseChunk ha.id_lt⟩
  | writeDelta chunk b =>
    exact ⟨_, rfl, writeChunk_log h ha.1 DeltaChunk ha.2⟩
  | writeDuplicate chunk b => exact ha.elim
  | get id =>
    refine ⟨s, ?_, by simpa [StoreOp.written] using h⟩
    simp [StoreOp.run, h.storeLog.getChunkContent (List.getElem?_eq_getElem ha)]
  | encode chunk b =>
    obtain ⟨s', he, hs'⟩ := encode_log h chunk ha
    exact ⟨s', by simp [StoreOp.run, he], by simpa [StoreOp.written] using hs'⟩
  | divide t =>
    refine ⟨s, ?_, by simpa [StoreOp.written] using h⟩
    simp [StoreOp.run, dividByBase_ok codec h.store t]
  | group groupSize t =>
    obtain ⟨hg, hbase⟩ := ha
    refine ⟨s, ?_, by simpa [StoreOp.written] using h⟩
    have hin : ∀ b, ∀ r ∈ recordsFrom 0 ws, r.InGroup b → b < (recordsFrom 0 ws).length := by
      intro b r hr hrb
      obtain ⟨k, hk⟩ := List.mem_iff_getElem?.1 hr
      rw [getElem?_recordsFrom, Option.map_eq_some_iff] at hk
      obtain ⟨w, hw, rfl⟩ := hk
      have hwm := List.mem_of_getElem? hw
      rw [length_recordsFrom, ← hrb.2]
      refine lt_of_le_of_lt ?_ (hbase w hwm)
      exact le_of_eq (UInt32.toNat_ofNat_of_lt' (h.base w hwm))
    simp [StoreOp.run, groupByBase_ok codec hg h.store hin t]

/-- **Each run keeps the log**, and adds what it writes. -/
theorem runOps_ok (codec : Codec) (ops : List StoreOp) : ∀ (s : Storage) (ws : List Written),
    LogOK s ws → AllAllowed ws ops →
    ∃ s', runOps codec ops s = some s' ∧ LogOK s' (ws ++ written ops) := by
  induction ops with
  | nil => intro s ws h _; exact ⟨s, rfl, by simpa [written] using h⟩
  | cons op ops ih =>
    intro s ws h ha
    obtain ⟨s₁, h₁, hs₁⟩ := run_ok codec h ha.1
    obtain ⟨s₂, h₂, hs₂⟩ := ih s₁ _ hs₁ ha.2
    refine ⟨s₂, ?_, by simpa [written, List.append_assoc] using hs₂⟩
    unfold runOps at h₂ ⊢
    rw [List.foldlM_cons, h₁]
    exact h₂

/-- When the log grows, the files only grow. -/
theorem LogOK.grows {s' : Storage} (h : LogOK s ws) {more : List Written}
    (h' : LogOK s' (ws ++ more)) :
    s.metaFile.bytes <+: s'.metaFile.bytes ∧ s.dataFile.bytes <+: s'.dataFile.bytes := by
  refine ⟨?_, ?_⟩
  · rw [h.store.records.metaBytes, h'.store.records.metaBytes, recordsFrom_append, List.map_append,
      List.flatMap_append]
    exact ⟨_, rfl⟩
  · rw [h.data, h'.data, logBytes, logBytes, List.flatMap_append]
    exact ⟨_, rfl⟩

/-- **The store can be read back.** After any run, the positions of both files are at the end; chunk
`k` reads as it was written and its record has its type, size, base and offset; every chunk in the
cache is what reading it returns; and whatever the run goes on with, nothing written is changed. -/
theorem storage_readback (codec : Codec) {cacheSize : ℕ}
    (hc : 2 ^ 20 ≤ (ChunkCache.new cacheSize).maxMemoryUsage) (ops : List StoreOp)
    (ha : AllAllowed [] ops) :
    ∃ s, runOps codec ops (.new cacheSize) = some s ∧ AtEnd s.metaFile ∧ AtEnd s.dataFile ∧
      (∀ k w, (written ops)[k]? = some w →
        s.getChunkContent k = some (⟨w.bytes, k⟩, s) ∧
        ∃ m, readRecord s (k * sizeofChunkMeta) = some m ∧ m.type = w.type ∧
          m.size.toNat = w.bytes.length ∧ m.baseChunkId.toNat = w.baseChunkId ∧
          m.offset.toNat = (logBytes ((written ops).take k)).length) ∧
      (∀ id p, s.cache.map id = some p → ∃ chunk, valAt s.cache.heap p = some ⟨id, some chunk⟩ ∧
        s.getChunkContent id = some (chunk, s)) ∧
      ∀ more, AllAllowed [] (ops ++ more) → ∃ s', runOps codec (ops ++ more) (.new cacheSize) = some s' ∧
        s.metaFile.bytes <+: s'.metaFile.bytes ∧ s.dataFile.bytes <+: s'.dataFile.bytes := by
  obtain ⟨s, hs, h⟩ := runOps_ok codec ops _ _ (logOK_new hc) ha
  rw [List.nil_append] at h
  refine ⟨s, hs, h.store.records.metaEnd, h.store.records.dataEnd, fun k w hk => ?_, fun id p hp => ?_,
    fun more hmore => ?_⟩
  · have hw := List.mem_of_getElem? hk
    refine ⟨h.storeLog.getChunkContent hk, _,
      h.store.records.readRecord (by rw [List.getElem?_map, record_log hk]; rfl), rfl, ?_, ?_, ?_⟩
    · exact UInt16.toNat_ofNat_of_lt' (lt_of_le_of_lt (h.short w hw) (by decide))
    · exact UInt32.toNat_ofNat_of_lt' (h.base w hw)
    · exact UInt64.toNat_ofNat_of_lt' (h.length_logBytes_lt k)
  · obtain ⟨-, es, hes, hmem⟩ := h.cache
    obtain ⟨e, he, rfl, rfl⟩ := (hes.map id p).1 hp
    obtain ⟨w, hw, hch⟩ := hmem e he
    exact ⟨e.chunk, hes.nodes e he, by rw [hch]; exact h.storeLog.getChunkContent hw⟩
  · obtain ⟨s', hs', h'⟩ := runOps_ok codec (ops ++ more) _ _ (logOK_new hc) hmore
    rw [List.nil_append, written, List.flatMap_append] at h'
    exact ⟨s', hs', h.grows h'⟩

/-- A base, a delta against it, and every kind of read. -/
theorem storage_readback_pair : ∃ s,
    runOps .fewBytes [.writeBase ⟨[1, 2], 0⟩, .encode ⟨[3], 1⟩ 0, .writeDelta ⟨[3], 1⟩ 0, .get 1, .divide {},
      .group 16 {}] (.new 1) = some s ∧ s.getChunkContent 1 = some (⟨[3], 1⟩, s) := by
  obtain ⟨s, hs, -, -, hread, -⟩ := storage_readback .fewBytes (by decide : 2 ^ 20 ≤ (ChunkCache.new 1).maxMemoryUsage)
    [.writeBase ⟨[1, 2], 0⟩, .encode ⟨[3], 1⟩ 0, .writeDelta ⟨[3], 1⟩ 0, .get 1, .divide {}, .group 16 {}]
    ⟨⟨rfl, by decide, by decide⟩, Nat.zero_lt_one, ⟨⟨rfl, by decide, by decide⟩, by decide⟩,
      Nat.one_lt_two, trivial, ⟨by decide, by decide⟩, trivial⟩
  exact ⟨s, hs, (hread 1 ⟨DeltaChunk, 0, [3]⟩ rfl).1⟩

end ChunkGrouping
