import Mathlib.Data.Nat.Bitwise
import ChunkGrouping.Proof.Readback

/-!
# Duplicate records

`WriteDuplicateChunk` looks up the record it copies the offset from at
`base_chunk_id & sizeof(ChunkMeta)`, not at `base_chunk_id * sizeof(ChunkMeta)`. The
record there is number 0 or 1, by bit 4 of the base id (`and_sizeof`).

* `writeDuplicate_ok`: the record a duplicate gets.
* `duplicate_resolves_iff`: it resolves to its base exactly when the record looked up
  has the base's offset.
* `duplicate_of_log_iff`: among non-empty chunks written before any duplicate, the base
  is chunk 0.
-/

namespace ChunkGrouping

open CFile

/-- The call is a write that may come after `n` others, a duplicate naming one of them. -/
def StoreOp.IsWrite (ws : List Written) : StoreOp → Prop
  | writeBase chunk => Next ws chunk
  | writeDelta chunk b => Next ws chunk ∧ b < 2 ^ 32
  | writeDuplicate chunk b => Next ws chunk ∧ b < ws.length
  | _ => False

/-- Every call of the run is such a write. -/
def AllWrites : List Written → List StoreOp → Prop
  | _, [] => True
  | ws, op :: ops => op.IsWrite ws ∧ AllWrites (ws ++ op.written) ops

/-- The offset of record `k`. -/
def offsetOf (s : Storage) (k : ℕ) : Option UInt64 :=
  (readRecord s (k * sizeofChunkMeta)).map ChunkMeta.offset

/-- The bytes `GetChunkContent(k)` returns. -/
def contentOf (s : Storage) (k : ℕ) : Option (List UInt8) := (s.getChunkContent k).map fun r => r.1.buf

/-- **The duplicate resolves to `b`**: record `n`, written from `s` to `s'`, has the offset of record
`b` and reads as it does, and all that was written before is as it was. -/
structure Resolves (s s' : Storage) (n b : ℕ) : Prop where
  offset : (offsetOf s b).isSome ∧ offsetOf s' n = offsetOf s b
  content : (contentOf s b).isSome ∧ contentOf s' n = contentOf s b
  records : s.metaFile.bytes <+: s'.metaFile.bytes
  data : s'.dataFile.bytes = s.dataFile.bytes

variable {s : Storage} {ms : List ChunkMeta}

/-- The bytes `id & sizeof(ChunkMeta)` of a file of records: record 0 or record 1. -/
theorem and_sizeof (b : ℕ) : b &&& sizeofChunkMeta = b / 16 % 2 * sizeofChunkMeta := by
  have h : b &&& 2 ^ 4 = (b.testBit 4).toNat * 2 ^ 4 := Nat.and_two_pow b 4
  rw [Nat.toNat_testBit] at h
  exact h

theorem and_sizeof_lt {b n : ℕ} (hb : b < n) : b / 16 % 2 < n := by omega

/-- The record a duplicate of `b` gets. -/
def duplicateRecord (offset : UInt64) (b len : ℕ) : ChunkMeta where
  offset := offset
  baseChunkId := .ofNat b
  size := .ofNat len
  type := DuplicateChunk

/-- **A duplicate write** adds a record with the offset found in record 0 or 1. -/
theorem writeDuplicate_ok (h : RecordsOK s ms) {b : ℕ} {m : ChunkMeta}
    (hm : ms[b / 16 % 2]? = some m) (chunk : Chunk) :
    ∃ s', s.writeDuplicateChunk chunk b = some s' ∧ s'.dataFile = s.dataFile ∧
      RecordsOK s' (ms ++ [duplicateRecord m.offset b chunk.len]) := by
  have hread := h.readRecord hm
  unfold readRecord at hread
  unfold Storage.writeDuplicateChunk
  rw [and_sizeof]
  simp only [fread_seekSet, hread, Option.bind_eq_bind, Option.bind_some]
  refine ⟨_, rfl, rfl, h.append _ ?_ h.dataEnd⟩
  simp only
  rw [seekEnd_fread h.metaEnd]
  rfl

/-- **Each write keeps the records**, and adds one. -/
theorem isWrite_ok (codec : Codec) {ws : List Written} (h : RecordsOK s ms)
    (hlen : ms.length = ws.length) {op : StoreOp} (hw : op.IsWrite ws) :
    ∃ s' m, op.run codec s = some s' ∧ RecordsOK s' (ms ++ [m]) ∧ op.written.length = 1 := by
  cases op with
  | writeBase chunk => exact ⟨_, _, rfl, (h.writeChunk BaseChunk chunk.id chunk).1, rfl⟩
  | writeDelta chunk b => exact ⟨_, _, rfl, (h.writeChunk DeltaChunk b chunk).1, rfl⟩
  | writeDuplicate chunk b =>
    have hlt : b / 16 % 2 < ms.length := and_sizeof_lt (hlen ▸ hw.2)
    obtain ⟨s', hs', -, hm⟩ := writeDuplicate_ok h (List.getElem?_eq_getElem hlt) chunk
    exact ⟨s', _, hs', hm, rfl⟩
  | get | encode | divide | group => exact hw.elim

/-- **A run of writes** leaves one record for each. -/
theorem allWrites_ok (codec : Codec) (ops : List StoreOp) :
    ∀ (s : Storage) (ms : List ChunkMeta) (ws : List Written), RecordsOK s ms →
      ms.length = ws.length → AllWrites ws ops →
      ∃ s' ms', runOps codec ops s = some s' ∧ RecordsOK s' ms' ∧
        ms'.length = (ws ++ written ops).length := by
  induction ops with
  | nil => intro s ms ws h hlen _; exact ⟨s, ms, rfl, h, by simpa [written] using hlen⟩
  | cons op ops ih =>
    intro s ms ws h hlen hw
    obtain ⟨s₁, m, h₁, hm, hone⟩ := isWrite_ok codec h hlen hw.1
    obtain ⟨s₂, ms₂, h₂, hms₂, hlen₂⟩ := ih s₁ (ms ++ [m]) (ws ++ op.written) hm (by simp [hlen, hone]) hw.2
    refine ⟨s₂, ms₂, ?_, hms₂, by simpa [written] using hlen₂⟩
    unfold runOps at h₂ ⊢
    rw [List.foldlM_cons, h₁]
    exact h₂

theorem offsetOf_eq (h : RecordsOK s ms) {k : ℕ} (hk : k < ms.length) :
    offsetOf s k = some (ms[k]).offset := by
  unfold offsetOf
  rw [h.readRecord (List.getElem?_eq_getElem hk)]; rfl

theorem contentOf_eq (h : RecordsOK s ms) {k : ℕ} (hk : k < ms.length) :
    contentOf s k =
      if (recordBytes s ms[k]).length = ms[k].size.toNat then some (recordBytes s ms[k]) else none := by
  unfold contentOf
  rw [getChunkContent_eq h (List.getElem?_eq_getElem hk)]
  split <;> rfl

/-- **A duplicate resolves to its base exactly when** the record looked up, number 0 or 1 by bit 4 of
the base id, has the offset of the base. -/
theorem duplicate_resolves_iff (codec : Codec) (cacheSize : ℕ) (ops : List StoreOp)
    (hw : AllWrites [] ops) (chunk : Chunk) (b : ℕ) (hn : Next (written ops) chunk)
    (hb : b < (written ops).length) :
    ∃ s, runOps codec ops (.new cacheSize) = some s ∧ (contentOf s b = some chunk.buf →
      ∃ s', s.writeDuplicateChunk chunk b = some s' ∧
        (Resolves s s' chunk.id b ↔ offsetOf s (b / 16 % 2) = offsetOf s b)) := by
  obtain ⟨s, ms, hs, h, hlen⟩ := allWrites_ok codec ops _ [] [] (storeOK_new cacheSize).records rfl hw
  rw [List.nil_append] at hlen
  refine ⟨s, hs, fun hcontent => ?_⟩
  rw [← hlen] at hb
  have hlt := and_sizeof_lt hb
  obtain ⟨s', hs', hdata, h'⟩ := writeDuplicate_ok h (List.getElem?_eq_getElem hlt) chunk
  set dup := duplicateRecord ms[b / 16 % 2].offset b chunk.len with hdup
  refine ⟨s', hs', ?_⟩
  have hid : chunk.id = ms.length := by rw [hn.id, hlen]
  have hnew : chunk.id < (ms ++ [dup]).length := by simp [hid]
  have hget : (ms ++ [dup])[chunk.id] = dup := by simp [hid]
  have hsize : dup.size.toNat = chunk.len :=
    UInt16.toNat_ofNat_of_lt' (lt_of_le_of_lt hn.len (by decide))
  rw [offsetOf_eq h hlt, offsetOf_eq h hb]
  constructor
  · rintro ⟨⟨-, ho⟩, -, -, -⟩
    rw [offsetOf_eq h' hnew, hget, offsetOf_eq h hb] at ho
    exact ho
  · intro ho
    -- with the offset of the base and the length of the chunk, the record leads to the base's bytes
    have ho' : dup.offset = ms[b].offset := Option.some.inj ho
    have hc := hcontent
    rw [contentOf_eq h hb] at hc
    split at hc
    · rename_i hfull
      have hbuf : recordBytes s ms[b] = chunk.buf := Option.some.inj hc
      have hsame : dup.size.toNat = ms[b].size.toNat := by rw [hsize, ← hfull, hbuf]; rfl
      have hbytes : recordBytes s' dup = recordBytes s ms[b] := by
        unfold recordBytes
        rw [hdata, ho', hsame]
      refine ⟨⟨by rw [offsetOf_eq h hb]; rfl, ?_⟩, ⟨by rw [hcontent]; rfl, ?_⟩, ?_, by rw [hdata]⟩
      · rw [offsetOf_eq h' hnew, hget, offsetOf_eq h hb, ho']
      · rw [contentOf_eq h' hnew, hget, hbytes, hsame, if_pos hfull, hcontent, hbuf]
      · rw [h.metaBytes, h'.metaBytes, List.flatMap_append]
        exact ⟨_, rfl⟩
    · simp at hc

/-- A duplicate of chunk 0. -/
theorem duplicate_resolves_iff_zero : ∃ s,
    runOps .fewBytes [.writeBase ⟨[1], 0⟩, .writeBase ⟨[2], 1⟩] (.new 1) = some s ∧
      ∃ s', s.writeDuplicateChunk ⟨[1], 2⟩ 0 = some s' ∧ Resolves s s' 2 0 := by
  obtain ⟨s, hs, h⟩ := duplicate_resolves_iff .fewBytes 1 [.writeBase ⟨[1], 0⟩, .writeBase ⟨[2], 1⟩]
    ⟨⟨rfl, by decide, by decide⟩, ⟨rfl, by decide, by decide⟩, trivial⟩ ⟨[1], 2⟩ 0
    ⟨rfl, by decide, by decide⟩ (by decide)
  obtain rfl := Option.some.inj hs
  obtain ⟨s', hs', hiff⟩ := h (by decide)
  exact ⟨_, rfl, s', hs', hiff.2 rfl⟩

/-- A duplicate of chunk 1 gets the offset of chunk 0, and reads as chunk 0. -/
theorem duplicate_of_one : ∃ s s',
    runOps .fewBytes [.writeBase ⟨[1], 0⟩, .writeBase ⟨[2], 1⟩] (.new 1) = some s ∧
      contentOf s 1 = some [2] ∧ s.writeDuplicateChunk ⟨[2], 2⟩ 1 = some s' ∧
      contentOf s' 2 = some [1] ∧ ¬ Resolves s s' 2 1 := by
  refine ⟨_, _, rfl, by decide, rfl, by decide, fun h => ?_⟩
  exact absurd h.content.2 (by decide)

/-! ## Which bases resolve -/

/-- The offsets of a log of non-empty chunks are all different. -/
theorem length_logBytes_strict {ws : List Written} (hne : ∀ w ∈ ws, w.bytes ≠ []) {j k : ℕ}
    (hjk : j < k) (hk : k ≤ ws.length) :
    (logBytes (ws.take j)).length < (logBytes (ws.take k)).length := by
  have hlt : j < ws.length := by omega
  have hsplit : ws.take k = ws.take j ++ (ws.drop j).take (k - j) := by
    rw [← List.take_add]; congr 1; omega
  have hdrop : (ws.drop j).take (k - j) = ws[j] :: (ws.drop (j + 1)).take (k - j - 1) := by
    obtain ⟨d, hd⟩ : ∃ d, k - j = d + 1 := ⟨k - j - 1, by omega⟩
    rw [List.drop_eq_getElem_cons hlt, hd]; rfl
  have hpos := List.length_pos_iff.2 (hne ws[j] (List.getElem_mem hlt))
  rw [hsplit, hdrop]
  simp only [logBytes, List.flatMap_append, List.flatMap_cons, List.length_append]
  omega

/-- **Among non-empty chunks only chunk 0 resolves**, before any duplicate is written. -/
theorem duplicate_of_log_iff {ws : List Written} (h : LogOK s ws) (hne : ∀ w ∈ ws, w.bytes ≠ []) {b : ℕ}
    (hb : b < ws.length) : offsetOf s (b / 16 % 2) = offsetOf s b ↔ b = 0 := by
  have hoff : ∀ k < ws.length, offsetOf s k = some (.ofNat (logBytes (ws.take k)).length) := by
    intro k hk
    unfold offsetOf
    rw [h.store.records.readRecord
      (by rw [List.getElem?_map, record_log (List.getElem?_eq_getElem hk)]; rfl)]
    rfl
  rw [hoff _ (and_sizeof_lt hb), hoff b hb]
  constructor
  · intro he
    by_contra hb0
    have hlt : b / 16 % 2 < b := by omega
    have hs := length_logBytes_strict hne hlt hb.le
    have hn := congrArg UInt64.toNat (Option.some.inj he)
    rw [UInt64.toNat_ofNat_of_lt' (h.length_logBytes_lt _),
      UInt64.toNat_ofNat_of_lt' (h.length_logBytes_lt _)] at hn
    omega
  · rintro rfl
    rfl

end ChunkGrouping
