import ChunkGrouping.Model.Storage

/-!
# What the two files of a store hold

`RecordsOK s ms`: `meta_` is the records `ms`, 16 bytes each, and both positions are
at the end. `StoreOK s rs`: moreover each record leads to the bytes it stands for.

* `getChunkContent_eq`, `getChunkContent_ok`: reading a chunk gives back the store it
  started from, positions included. `RecordsOK.getChunkContent`, `RecordsOK.encode`: any call
  that returns does, up to the cache.
* `writeChunk_ok`: a write adds a record at the end of the store and the chunk's
  bytes at the end of `data_`.
-/

namespace ChunkGrouping

open CFile LittleEndian

theorem length_toBytes (m : ChunkMeta) : m.toBytes.length = sizeofChunkMeta := by
  simp [ChunkMeta.toBytes, sizeofChunkMeta]

/-- **A record is read back as it was written.** -/
theorem ofBytes_toBytes (m : ChunkMeta) : ChunkMeta.ofBytes m.toBytes = some m := by
  have ho : m.offset.toNat < 256 ^ 8 := m.offset.toNat_lt
  have hb : m.baseChunkId.toNat < 256 ^ 4 := m.baseChunkId.toNat_lt
  have hs : m.size.toNat < 256 ^ 2 := m.size.toNat_lt
  have hcat : m.toBytes = toLE 8 m.offset.toNat ++ (toLE 4 m.baseChunkId.toNat ++
      (toLE 2 m.size.toNat ++ [m.type, 0])) := by
    simp only [ChunkMeta.toBytes, List.append_assoc]
  have h0 : slice m.toBytes 0 8 = toLE 8 m.offset.toNat := by
    rw [hcat]; exact slice_middle (rfl : List.length [] = 0) (length_toLE _ _) _
  have h8 : slice m.toBytes 8 4 = toLE 4 m.baseChunkId.toNat := by
    rw [hcat]; exact slice_middle (length_toLE _ _) (length_toLE _ _) _
  have h12 : slice m.toBytes 12 2 = toLE 2 m.size.toNat := by
    rw [hcat, ← List.append_assoc]; exact slice_middle (by simp) (length_toLE _ _) _
  have h14 : m.toBytes.getD 14 0 = m.type := by
    rw [hcat, ← List.append_assoc, ← List.append_assoc, List.getD_eq_getElem?_getD,
      List.getElem?_append_right (by simp)]
    simp
  unfold ChunkMeta.ofBytes
  rw [if_pos (length_toBytes m), h0, h8, h12, h14, ofLE_toLE_of_lt ho, ofLE_toLE_of_lt hb,
    ofLE_toLE_of_lt hs, UInt64.ofNat_toNat, UInt32.ofNat_toNat, UInt16.ofNat_toNat]

/-- **`meta_` is the records `ms`**, and both positions are at the end of their file. -/
structure RecordsOK (s : Storage) (ms : List ChunkMeta) : Prop where
  metaBytes : s.metaFile.bytes = ms.flatMap ChunkMeta.toBytes
  metaEnd : AtEnd s.metaFile
  dataEnd : AtEnd s.dataFile

/-- The bytes of `data_` a record leads to, as far as there are any. -/
def recordBytes (s : Storage) (m : ChunkMeta) : List UInt8 :=
  slice s.dataFile.bytes m.offset.toNat m.size.toNat

/-- Record `k` as `GetChunkContent` and `WriteDuplicateChunk` read it. -/
def readRecord (s : Storage) (offset : ℕ) : Option ChunkMeta :=
  ChunkMeta.ofBytes (slice s.metaFile.bytes offset sizeofChunkMeta)

variable {s : Storage} {ms : List ChunkMeta}

theorem RecordsOK.readRecord (h : RecordsOK s ms) {k : ℕ} {m : ChunkMeta} (hk : ms[k]? = some m) :
    readRecord s (k * sizeofChunkMeta) = some m := by
  unfold ChunkGrouping.readRecord
  rw [h.metaBytes, slice_flatMap length_toBytes hk, ofBytes_toBytes]

/-- `Chunk::FromFileStream` behind a seek. -/
theorem fromFileStream_seekSet (size id offset : ℕ) (f : Stream) :
    Chunk.fromFileStream size id (seekSet offset f) =
      if (slice f.bytes offset size).length = size then
        some (⟨slice f.bytes offset size, id⟩, (fread size (seekSet offset f)).2)
      else none := rfl

/-- **`GetChunkContent`**: the bytes the record leads to, when `data_` has them all. The store is
as before. -/
theorem getChunkContent_eq (h : RecordsOK s ms) {k : ℕ} {m : ChunkMeta} (hk : ms[k]? = some m) :
    s.getChunkContent k =
      if (recordBytes s m).length = m.size.toNat then some (⟨recordBytes s m, k⟩, s) else none := by
  have hr := h.readRecord hk
  unfold ChunkGrouping.readRecord at hr
  unfold Storage.getChunkContent
  simp only [fread_seekSet, hr, Option.bind_eq_bind, Option.bind_some, fromFileStream_seekSet]
  unfold recordBytes
  split
  · simp only [Option.bind_some]
    rw [seekEnd_fread h.metaEnd, seekEnd_fread h.dataEnd]
  · rfl

/-- One more at the end of a list. -/
theorem getElem?_concat {α : Type} {xs : List α} {x y : α} {k : ℕ} :
    (xs ++ [x])[k]? = some y ↔ xs[k]? = some y ∨ (k = xs.length ∧ x = y) := by
  rcases Nat.lt_trichotomy k xs.length with h | rfl | h
  · rw [List.getElem?_append_left h]
    exact ⟨.inl, fun hy => hy.resolve_right fun he => absurd he.1 (by omega)⟩
  · simp
  · rw [List.getElem?_eq_none (by simp; omega), List.getElem?_eq_none (by omega)]
    simp only [reduceCtorEq, false_or, false_iff, not_and]
    omega

/-! ## Calls that return -/

theorem RecordsOK.withCache (h : RecordsOK s ms) (cache : ChunkCache) : RecordsOK { s with cache } ms :=
  ⟨h.metaBytes, h.metaEnd, h.dataEnd⟩

/-- **Reading a chunk** comes back to the end of both files. -/
theorem RecordsOK.getChunkContent (h : RecordsOK s ms) {s' : Storage} {id : ℕ} {c : Chunk}
    (hg : s.getChunkContent id = some (c, s')) : s' = s := by
  simp only [Storage.getChunkContent, Chunk.fromFileStream, Option.bind_eq_bind, Option.bind_eq_some_iff,
    Option.some.injEq, Prod.mk.injEq, Option.ite_none_right_eq_some] at hg
  obtain ⟨m, -, ⟨c', f⟩, ⟨-, -, rfl⟩, -, rfl⟩ := hg
  rw [seekEnd_fread h.metaEnd, seekEnd_fread h.dataEnd]

/-- **Encoding** changes nothing but the cache. -/
theorem RecordsOK.encode (h : RecordsOK s ms) {s' : Storage} {c c' : Chunk} {b : ℕ}
    (he : s.getDeltaEncodedChunk c b = some (c', s')) : ∃ cache, s' = { s with cache } := by
  simp only [Storage.getDeltaEncodedChunk, Option.bind_eq_bind, Option.bind_eq_some_iff] at he
  obtain ⟨⟨base, cache⟩, -, he⟩ := he
  cases base with
  | some _ => exact ⟨cache, (Prod.mk.inj (Option.some.inj he)).2.symm⟩
  | none =>
    simp only [Option.bind_eq_some_iff, Option.some.injEq, Prod.mk.injEq] at he
    obtain ⟨⟨base, s₁⟩, hg, cache', -, -, rfl⟩ := he
    obtain rfl := (h.withCache cache).getChunkContent hg
    exact ⟨cache', rfl⟩

/-! ## Records that lead to bytes -/

/-- A record and the bytes it stands for. -/
structure Record where
  info : ChunkMeta
  bytes : List UInt8

/-- **The store holds `rs`**: its records are theirs, and each leads to its bytes. -/
structure StoreOK (s : Storage) (rs : List Record) : Prop where
  records : RecordsOK s (rs.map Record.info)
  bytes : ∀ r ∈ rs, recordBytes s r.info = r.bytes
  size : ∀ r ∈ rs, r.bytes.length = r.info.size.toNat

variable {rs : List Record}

theorem storeOK_new (cacheSize : ℕ) : StoreOK (.new cacheSize) [] :=
  ⟨⟨rfl, rfl, rfl⟩, by simp, by simp⟩

/-- The store is `rs` whatever the cache holds. -/
theorem StoreOK.withCache (h : StoreOK s rs) (cache : ChunkCache) : StoreOK { s with cache } rs :=
  ⟨h.records.withCache cache, h.bytes, h.size⟩

/-- **Reading back**: chunk `k` is the bytes of record `k`, and the store is as before. -/
theorem getChunkContent_ok (h : StoreOK s rs) {k : ℕ} {r : Record} (hk : rs[k]? = some r) :
    s.getChunkContent k = some (⟨r.bytes, k⟩, s) := by
  have hr : r ∈ rs := List.mem_of_getElem? hk
  rw [getChunkContent_eq h.records (m := r.info) (by simp [hk]), h.bytes r hr, if_pos (h.size r hr)]

/-- What the last record of a store leads to stays, whatever is appended. -/
theorem recordBytes_append {data : List UInt8} {m : ChunkMeta} {out : List UInt8} {s' : Storage}
    (hs : s.dataFile.bytes = data) (hs' : s'.dataFile.bytes = data ++ out)
    (hm : (recordBytes s m).length = m.size.toNat) : recordBytes s' m = recordBytes s m := by
  unfold recordBytes at hm ⊢
  rw [hs] at hm ⊢
  rw [hs']
  rcases le_of_length_slice hm with h0 | hle
  · rw [h0]; unfold slice; rw [List.take_zero, List.take_zero]
  · exact slice_append hle out

/-! ## Writes -/

/-- The record a write of `bytes` leaves. -/
def recordAt (offset : ℕ) (type : UInt8) (baseChunkId : ℕ) (bytes : List UInt8) : Record where
  info := {
    offset := .ofNat offset
    baseChunkId := .ofNat baseChunkId
    size := .ofNat bytes.length
    type }
  bytes

theorem RecordsOK.append (h : RecordsOK s ms) {s' : Storage} (m : ChunkMeta)
    (hm : s'.metaFile = fwrite m.toBytes s.metaFile) (hd : AtEnd s'.dataFile) :
    RecordsOK s' (ms ++ [m]) := by
  rw [fwrite_atEnd h.metaEnd] at hm
  refine ⟨?_, ?_, hd⟩
  · rw [hm, List.flatMap_append, List.flatMap_singleton]
    simp only
    rw [h.metaBytes]
  · rw [hm]; rfl

/-- **A write** adds a record and the chunk's bytes. -/
theorem RecordsOK.writeChunk (h : RecordsOK s ms) (type : UInt8) (b : ℕ) (c : Chunk) :
    RecordsOK (s.writeChunk type b c) (ms ++ [(recordAt s.dataFile.bytes.length type b c.buf).info]) ∧
      (s.writeChunk type b c).dataFile.bytes = s.dataFile.bytes ++ c.buf := by
  have hdata : (s.writeChunk type b c).dataFile = _ := fwrite_atEnd h.dataEnd c.buf
  have hpos : ftell s.dataFile = s.dataFile.bytes.length := h.dataEnd
  refine ⟨h.append _ ?_ (by rw [hdata]; rfl), by rw [hdata]⟩
  simp only [Storage.writeChunk, recordAt, hpos]
  rfl

/-- The bytes a record of `bytes` leads to: its size field has 16 bits. -/
def stored (bytes : List UInt8) : List UInt8 := bytes.take (bytes.length % 2 ^ 16)

theorem stored_eq {bytes : List UInt8} (h : bytes.length < 2 ^ 16) : stored bytes = bytes := by
  unfold stored
  rw [Nat.mod_eq_of_lt h, List.take_length]

theorem length_stored (bytes : List UInt8) : (stored bytes).length = bytes.length % 2 ^ 16 := by
  unfold stored
  rw [List.length_take]
  exact min_eq_left (Nat.mod_le _ _)

/-- **A write adds one record**, at the end of both files, whatever the length of the chunk. -/
theorem writeChunk_stored (h : StoreOK s rs) (type : UInt8) (baseChunkId : ℕ) (chunk : Chunk)
    (hdata : s.dataFile.bytes.length < 2 ^ 64) :
    StoreOK (s.writeChunk type baseChunkId chunk)
        (rs ++ [recordAt s.dataFile.bytes.length type baseChunkId (stored chunk.buf)]) ∧
      (s.writeChunk type baseChunkId chunk).dataFile.bytes = s.dataFile.bytes ++ chunk.buf ∧
      (s.writeChunk type baseChunkId chunk).cache = s.cache := by
  set r := recordAt s.dataFile.bytes.length type baseChunkId (stored chunk.buf) with hr
  obtain ⟨hrecords, hdf⟩ := h.records.writeChunk type baseChunkId chunk
  have hinfo : r.info = (recordAt s.dataFile.bytes.length type baseChunkId chunk.buf).info := by
    simp only [hr, recordAt, length_stored, UInt16.ofNat_mod_size]
  have hsize : r.info.size.toNat = (stored chunk.buf).length := by
    simp only [hr, recordAt]
    exact UInt16.toNat_ofNat_of_lt' (by rw [length_stored]; exact Nat.mod_lt _ (by omega))
  have hoff : r.info.offset.toNat = s.dataFile.bytes.length := by
    simp only [hr, recordAt]
    exact UInt64.toNat_ofNat_of_lt' hdata
  refine ⟨⟨?_, ?_, ?_⟩, hdf, rfl⟩
  · rw [List.map_append, List.map_singleton, hinfo]
    exact hrecords
  · intro x hx
    rcases List.mem_append.1 hx with hx | hx
    · rw [← h.bytes x hx]
      refine recordBytes_append rfl hdf ?_
      rw [h.bytes x hx, h.size x hx]
    · rw [List.mem_singleton.1 hx]
      unfold recordBytes
      rw [hoff, hsize, hdf, length_stored]
      unfold slice
      rw [List.drop_left]
      rfl
  · intro x hx
    rcases List.mem_append.1 hx with hx | hx
    · exact h.size x hx
    · rw [List.mem_singleton.1 hx, hsize]; rfl

/-- **A write of a chunk whose length fits** the size field. -/
theorem writeChunk_ok (h : StoreOK s rs) (type : UInt8) (baseChunkId : ℕ) (chunk : Chunk)
    (hlen : chunk.len < 2 ^ 16) (hdata : s.dataFile.bytes.length < 2 ^ 64) :
    StoreOK (s.writeChunk type baseChunkId chunk)
        (rs ++ [recordAt s.dataFile.bytes.length type baseChunkId chunk.buf]) ∧
      (s.writeChunk type baseChunkId chunk).dataFile.bytes = s.dataFile.bytes ++ chunk.buf ∧
      (s.writeChunk type baseChunkId chunk).cache = s.cache := by
  have := writeChunk_stored h type baseChunkId chunk hdata
  rwa [stored_eq hlen] at this

end ChunkGrouping
