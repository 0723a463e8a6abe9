import ChunkGrouping.Proof.PalantirIndex
import ChunkGrouping.Proof.Repeats

/-!
# The references of the pipeline are well founded

Ids are handed out by the chunker, kept by `dedup_` and by the index, and read back as
positions in `meta_`. As long as they do not wrap, position and id are the same, and the
write worker writes chunk `k` as record `k`.

* `Founded`: what the records say of the chunks; `Founded.concat` for one more.
* `MembersOK`: what `dedup_`, the index and the storage have in common; `membersOK_step`
  for a chunk, `membersOK_run` for any number.
* `pipeline_founded`: any schedule.
-/

namespace ChunkGrouping

open InsertMap CFile BoundedPipeline PipelineRun

variable {ι φ : Type}

/-- The type of the record a call writes. -/
def StoreOp.typeWritten : StoreOp → Option UInt8
  | writeBase _ => some BaseChunk
  | writeDelta _ _ => some DeltaChunk
  | writeDuplicate _ _ => some DuplicateChunk
  | _ => none

/-! ## Records -/

/-- **A duplicate write that returns** adds a record with some offset. -/
theorem RecordsOK.writeDuplicate {s s' : Storage} {ms : List ChunkMeta} (h : RecordsOK s ms) {c : Chunk} {b : ℕ}
    (hw : s.writeDuplicateChunk c b = some s') :
    s'.dataFile = s.dataFile ∧ ∃ offset, RecordsOK s' (ms ++ [duplicateRecord offset b c.len]) := by
  simp only [Storage.writeDuplicateChunk, Option.bind_eq_bind, Option.bind_eq_some_iff, Option.some.injEq] at hw
  obtain ⟨baseMeta, -, rfl⟩ := hw
  refine ⟨rfl, baseMeta.offset, h.append _ ?_ h.dataEnd⟩
  dsimp only
  rw [seekEnd_fread h.metaEnd]
  rfl

/-- **Record `k` describes chunk `k`**: its size, when the 16 bits of the field hold it, and for a chunk that is
stored where its bytes start. -/
structure Describes (data : List UInt8) (k : ℕ) (c : Chunk) (r : ChunkMeta) : Prop where
  type : r.type = BaseChunk ∨ r.type = DeltaChunk ∨ r.type = DuplicateChunk
  size : c.len ≤ 65535 → r.size.toNat = c.len
  base : r.type = BaseChunk → r.baseChunkId = .ofNat k
  stored : r.type ≠ DuplicateChunk → ∃ before after, data = before ++ (c.buf ++ after) ∧
    r.offset = .ofNat before.length

/-- Entry `b` is the earliest with the bytes of `c`, and no duplicate. -/
def IsFirst (es : List (Chunk × ChunkMeta)) (b : ℕ) (c : Chunk) : Prop :=
  (∃ (c' : Chunk) (r' : ChunkMeta), es[b]? = some (c', r') ∧ c'.buf = c.buf ∧ r'.type ≠ DuplicateChunk) ∧
    ∀ (i : ℕ) (c' : Chunk) (r' : ChunkMeta), es[i]? = some (c', r') → c'.buf = c.buf → b ≤ i

/-- **Well founded references** of chunks and their records: record `k` describes chunk `k`; a duplicate
names the earliest chunk with its bytes, and that is none itself; a delta names a base before it; and
what is not a duplicate has bytes of its own. -/
structure Founded (es : List (Chunk × ChunkMeta)) (data : List UInt8) : Prop where
  describes : ∀ (k : ℕ) (c : Chunk) (r : ChunkMeta), es[k]? = some (c, r) → Describes data k c r
  duplicate : ∀ (k : ℕ) (c : Chunk) (r : ChunkMeta), es[k]? = some (c, r) → r.type = DuplicateChunk →
    r.baseChunkId.toNat < k ∧ IsFirst es r.baseChunkId.toNat c
  delta : ∀ (k : ℕ) (c : Chunk) (r : ChunkMeta), es[k]? = some (c, r) → r.type = DeltaChunk →
    r.baseChunkId.toNat < k ∧
      ∃ (c' : Chunk) (r' : ChunkMeta), es[r.baseChunkId.toNat]? = some (c', r') ∧ r'.type = BaseChunk
  distinct : ∀ (j k : ℕ) (c c' : Chunk) (r r' : ChunkMeta), es[j]? = some (c, r) → es[k]? = some (c', r') →
    r.type ≠ DuplicateChunk → r'.type ≠ DuplicateChunk → c.buf = c'.buf → j = k

/-- **Each base was there when it was asked for**: before a call that encodes against `b`, record `b`
was written, as a base. -/
def AskedWritten (calls : List StoreOp) : Prop :=
  ∀ i c b, calls[i]? = some (.encode c b) →
    ((calls.take i).filterMap StoreOp.typeWritten)[b]? = some BaseChunk

/-- The size field of a chunk it can hold. -/
theorem sizeField {n : ℕ} (h : n ≤ 65535) : (UInt16.ofNat n).toNat = n :=
  UInt16.toNat_ofNat_of_lt' (lt_of_le_of_lt h (by decide))

theorem founded_nil : Founded [] [] :=
  ⟨by simp, by simp, by simp, by simp⟩

variable {es : List (Chunk × ChunkMeta)} {data more : List UInt8} {c : Chunk} {r : ChunkMeta}

theorem Describes.append {k : ℕ} (h : Describes data k c r) (more : List UInt8) : Describes (data ++ more) k c r := by
  refine ⟨h.type, h.size, h.base, fun ht => ?_⟩
  obtain ⟨before, after, rfl, ho⟩ := h.stored ht
  exact ⟨before, after ++ more, by simp, ho⟩

/-- The first entry stays first. -/
theorem IsFirst.concat {b : ℕ} (h : IsFirst es b c) (e : Chunk × ChunkMeta) : IsFirst (es ++ [e]) b c := by
  obtain ⟨⟨c', r', hb, hbuf, ht⟩, hle⟩ := h
  refine ⟨⟨c', r', getElem?_concat.2 (.inl hb), hbuf, ht⟩, fun i c'' r'' hi hbuf' => ?_⟩
  rcases getElem?_concat.1 hi with hi | ⟨rfl, -⟩
  · exact hle i c'' r'' hi hbuf'
  · exact (List.getElem?_eq_some_iff.1 hb).1.le

/-- **One more record.** -/
theorem Founded.concat (h : Founded es data) (hd : Describes (data ++ more) es.length c r)
    (hdup : r.type = DuplicateChunk → IsFirst es r.baseChunkId.toNat c)
    (hdelta : r.type = DeltaChunk →
      ∃ (c' : Chunk) (r' : ChunkMeta), es[r.baseChunkId.toNat]? = some (c', r') ∧ r'.type = BaseChunk)
    (hnew : r.type ≠ DuplicateChunk → ∀ c' r', (c', r') ∈ es → c'.buf ≠ c.buf) :
    Founded (es ++ [(c, r)]) (data ++ more) := by
  refine ⟨fun k c' r' hk => ?_, fun k c' r' hk ht => ?_, fun k c' r' hk ht => ?_,
    fun j k c₁ c₂ r₁ r₂ hj hk h₁ h₂ hb => ?_⟩
  · rcases getElem?_concat.1 hk with hk | ⟨rfl, he⟩
    · exact (h.describes k c' r' hk).append more
    · obtain ⟨rfl, rfl⟩ := Prod.mk.inj he
      exact hd
  · rcases getElem?_concat.1 hk with hk | ⟨rfl, he⟩
    · obtain ⟨hlt, hf⟩ := h.duplicate k c' r' hk ht
      exact ⟨hlt, hf.concat _⟩
    · obtain ⟨rfl, rfl⟩ := Prod.mk.inj he
      have hf := hdup ht
      obtain ⟨c'', r'', hb, -⟩ := hf.1
      exact ⟨(List.getElem?_eq_some_iff.1 hb).1, hf.concat _⟩
  · rcases getElem?_concat.1 hk with hk | ⟨rfl, he⟩
    · obtain ⟨hlt, c'', r'', hb, ht''⟩ := h.delta k c' r' hk ht
      exact ⟨hlt, c'', r'', getElem?_concat.2 (.inl hb), ht''⟩
    · obtain ⟨rfl, rfl⟩ := Prod.mk.inj he
      obtain ⟨c'', r'', hb, ht''⟩ := hdelta ht
      exact ⟨(List.getElem?_eq_some_iff.1 hb).1, c'', r'', getElem?_concat.2 (.inl hb), ht''⟩
  · rcases getElem?_concat.1 hj with hj | ⟨hj, hej⟩ <;> rcases getElem?_concat.1 hk with hk | ⟨hk, hek⟩
    · exact h.distinct j k c₁ c₂ r₁ r₂ hj hk h₁ h₂ hb
    · obtain ⟨rfl, rfl⟩ := Prod.mk.inj hek
      exact absurd hb (hnew h₂ c₁ r₁ (List.mem_of_getElem? hj))
    · obtain ⟨rfl, rfl⟩ := Prod.mk.inj hej
      exact absurd hb.symm (hnew h₁ c₂ r₂ (List.mem_of_getElem? hk))
    · rw [hj, hk]

theorem AskedWritten.append {calls : List StoreOp} (h : AskedWritten calls) {ops : List StoreOp}
    (hops : ∀ i c b, ops[i]? = some (.encode c b) →
      ((calls ++ ops.take i).filterMap StoreOp.typeWritten)[b]? = some BaseChunk) : AskedWritten (calls ++ ops) := by
  intro i c b hi
  rcases Nat.lt_or_ge i calls.length with hlt | hge
  · rw [List.getElem?_append_left hlt] at hi
    rw [List.take_append_of_le_length hlt.le]
    exact h i c b hi
  · rw [List.getElem?_append_right hge] at hi
    rw [List.take_append, List.take_of_length_le hge]
    exact hops _ c b hi

/-! ## What the members have in common -/

/-- **`dedup_`** has for each content the first entry with it, and that is no duplicate. -/
structure SeenOK (es : List (Chunk × ChunkMeta)) (d : Dedup) : Prop where
  first : ∀ (digest : List UInt8) (id : ℕ), get? digest d.mp = some id →
    (∃ (c : Chunk) (r : ChunkMeta), es[id]? = some (c, r) ∧ Sha1.hash c.buf = digest ∧ r.type ≠ DuplicateChunk) ∧
      ∀ (i : ℕ) (c : Chunk) (r : ChunkMeta), es[i]? = some (c, r) → Sha1.hash c.buf = digest → id ≤ i
  seen : ∀ e ∈ es, (get? (Sha1.hash e.1.buf) d.mp).isSome

/-- **The write worker** has written the records. -/
structure WriterOK (es : List (Chunk × ChunkMeta)) (w : Writer) : Prop where
  records : RecordsOK w.storage (es.map Prod.snd)
  founded : Founded es w.storage.dataFile.bytes
  types : w.calls.filterMap StoreOp.typeWritten = es.map fun e => e.2.type
  asked : AskedWritten w.calls

/-- A content that was seen before. -/
theorem SeenOK.hit {d : Dedup} (h : SeenOK es d) {id : ℕ} (hget : get? (Sha1.hash c.buf) d.mp = some id)
    (r : ChunkMeta) : SeenOK (es ++ [(c, r)]) d := by
  refine ⟨fun digest id' hid => ?_, List.forall_mem_append.2 ⟨h.seen, List.forall_mem_singleton.2 ?_⟩⟩
  · obtain ⟨⟨c', r', hb, hh, ht⟩, hle⟩ := h.first digest id' hid
    refine ⟨⟨c', r', getElem?_concat.2 (.inl hb), hh, ht⟩, fun i c'' r'' hi hh' => ?_⟩
    rcases getElem?_concat.1 hi with hi | ⟨rfl, -⟩
    · exact hle i c'' r'' hi hh'
    · exact (List.getElem?_eq_some_iff.1 hb).1.le
  · rw [hget]
    rfl

/-- A new content. -/
theorem SeenOK.miss {d : Dedup} (h : SeenOK es d) (hget : get? (Sha1.hash c.buf) d.mp = none)
    (hid : c.id = es.length) (ht : r.type ≠ DuplicateChunk) : SeenOK (es ++ [(c, r)]) (d.processChunk c).2 := by
  have hd : (d.processChunk c).2 = ⟨set (Sha1.hash c.buf) c.id d.mp⟩ := by simp [Dedup.processChunk, hget]
  rw [hd]
  refine ⟨fun digest id' hid' => ?_, fun e he => ?_⟩
  · rw [get?_set] at hid'
    by_cases hh : Sha1.hash c.buf = digest
    · rw [if_pos (by simpa using hh), hid] at hid'
      obtain rfl := Option.some.inj hid'
      refine ⟨⟨c, r, getElem?_concat.2 (.inr ⟨rfl, rfl⟩), hh, ht⟩, fun i c' r' hi hh' => ?_⟩
      rcases getElem?_concat.1 hi with hi | ⟨rfl, -⟩
      · -- an earlier entry with the digest would have been found
        have hseen := h.seen _ (List.mem_of_getElem? hi)
        rw [hh', ← hh, hget] at hseen
        cases hseen
      · exact le_rfl
    · rw [if_neg (by simpa using hh)] at hid'
      obtain ⟨⟨c', r', hb, hh', ht'⟩, hle⟩ := h.first digest id' hid'
      refine ⟨⟨c', r', getElem?_concat.2 (.inl hb), hh', ht'⟩, fun i c'' r'' hi hh'' => ?_⟩
      rcases getElem?_concat.1 hi with hi | ⟨rfl, -⟩
      · exact hle i c'' r'' hi hh''
      · exact (List.getElem?_eq_some_iff.1 hb).1.le
  · rcases List.mem_append.1 he with he | he
    · exact isSome_get?_alter _ _ _ (h.seen e he)
    · rw [List.mem_singleton.1 he]
      exact isSome_get?_alter_self _ _ _ _

/-- **A write** of the calls `ops` and the record `r`. -/
theorem WriterOK.write {w w' : Writer} {ops : List StoreOp} (h : WriterOK es w)
    (hrec : RecordsOK w'.storage (es.map Prod.snd ++ [r]))
    (hdata : w'.storage.dataFile.bytes = w.storage.dataFile.bytes ++ more) (hcalls : w'.calls = w.calls ++ ops)
    (htypes : ops.filterMap StoreOp.typeWritten = [r.type])
    (hops : ∀ i c b, ops[i]? = some (.encode c b) →
      ((w.calls ++ ops.take i).filterMap StoreOp.typeWritten)[b]? = some BaseChunk)
    (hd : Describes (w.storage.dataFile.bytes ++ more) es.length c r)
    (hdup : r.type = DuplicateChunk → IsFirst es r.baseChunkId.toNat c)
    (hdelta : r.type = DeltaChunk →
      ∃ (c' : Chunk) (r' : ChunkMeta), es[r.baseChunkId.toNat]? = some (c', r') ∧ r'.type = BaseChunk)
    (hnew : r.type ≠ DuplicateChunk → ∀ c' r', (c', r') ∈ es → c'.buf ≠ c.buf) :
    WriterOK (es ++ [(c, r)]) w' where
  records := by rwa [List.map_append, List.map_singleton]
  founded := by
    rw [hdata]
    exact h.founded.concat hd hdup hdelta hnew
  types := by rw [hcalls, List.filterMap_append, h.types, htypes, List.map_append, List.map_singleton]
  asked := by
    rw [hcalls]
    exact h.asked.append hops

variable [Index ι φ] [LawfulIndex ι φ]

/-- **What the members have in common** after the chunks and records `es`: `dedup_` and the index name
positions in `meta_`. -/
structure MembersOK (φ : Type) [Index ι φ] [LawfulIndex ι φ] (es : List (Chunk × ChunkMeta)) (m : Members ι) :
    Prop where
  seen : SeenOK es m.dedup
  ready : LawfulIndex.Ready φ m.index
  known : ∀ id, LawfulIndex.known φ m.index id →
    ∃ (c : Chunk) (r : ChunkMeta), es[id]? = some (c, r) ∧ r.type = BaseChunk
  writer : WriterOK es m.writer

theorem known_concat {P : ChunkMeta → Prop} {id : ℕ}
    (h : ∃ (c : Chunk) (r : ChunkMeta), es[id]? = some (c, r) ∧ P r) (e : Chunk × ChunkMeta) :
    ∃ (c : Chunk) (r : ChunkMeta), (es ++ [e])[id]? = some (c, r) ∧ P r := by
  obtain ⟨c, r, hid, hr⟩ := h
  exact ⟨c, r, getElem?_concat.2 (.inl hid), hr⟩

/-- **A duplicate.** -/
theorem MembersOK.duplicate {m m' : Members ι} (h : MembersOK φ es m) {id : ℕ}
    (hcount : es.length ≤ 2 ^ 32)
    (hsha : ∀ e ∈ es, Sha1.hash e.1.buf = Sha1.hash c.buf → e.1.buf = c.buf)
    (hget : get? (Sha1.hash c.buf) m.dedup.mp = some id) (hdedup : m'.dedup = m.dedup) (hindex : m'.index = m.index)
    (hw : m.writer.storage.writeDuplicateChunk c id = some m'.writer.storage)
    (hcalls : m'.writer.calls = m.writer.calls ++ [.writeDuplicate c id]) :
    ∃ r, MembersOK φ (es ++ [(c, r)]) m' := by
  obtain ⟨⟨c', r', hb, hh, ht⟩, hle⟩ := h.seen.first _ _ hget
  have hlt : id < 2 ^ 32 := lt_of_lt_of_le (List.getElem?_eq_some_iff.1 hb).1 hcount
  have hid : (UInt32.ofNat id).toNat = id := UInt32.toNat_ofNat_of_lt' hlt
  obtain ⟨hdata, offset, hrec⟩ := h.writer.records.writeDuplicate hw
  have hnothing : m'.writer.storage.dataFile.bytes = m.writer.storage.dataFile.bytes ++ [] := by
    rw [hdata, List.append_nil]
  refine ⟨duplicateRecord offset id c.len, by rw [hdedup]; exact h.seen.hit hget _, by rw [hindex]; exact h.ready,
    fun x hx => known_concat (h.known x (hindex ▸ hx)) _,
    h.writer.write hrec hnothing hcalls rfl ?_ ⟨.inr (.inr rfl), sizeField, ?_, ?_⟩ (fun _ => ?_) ?_ ?_⟩
  · intro i x b hi
    rcases i with _ | i <;> simp at hi
  · exact fun hb => absurd hb (by decide : (DuplicateChunk : UInt8) ≠ BaseChunk)
  · exact fun hne => absurd rfl hne
  · show IsFirst es (UInt32.ofNat id).toNat c
    rw [hid]
    refine ⟨⟨c', r', hb, hsha _ (List.mem_of_getElem? hb) hh, ht⟩, fun i c'' r'' hi hbuf => ?_⟩
    exact hle i c'' r'' hi (by rw [hbuf])
  · exact fun hd => absurd hd (by decide : (DuplicateChunk : UInt8) ≠ DeltaChunk)
  · exact fun hne => absurd rfl hne

/-- The record of a chunk that is stored. -/
theorem describes_write {data : List UInt8} {k : ℕ} {type : UInt8} {b : ℕ} (c : Chunk)
    (ht : type = BaseChunk ∧ b = k ∨ type = DeltaChunk) :
    Describes (data ++ c.buf) k c (recordAt data.length type b c.buf).info := by
  refine ⟨ht.imp (fun h => h.1) .inl, sizeField, fun htype => ?_, fun _ => ⟨data, [], by simp, rfl⟩⟩
  rcases ht with ⟨-, rfl⟩ | rfl
  · rfl
  · exact absurd htype (by decide : (DeltaChunk : UInt8) ≠ BaseChunk)

/-- A content that `dedup_` does not have is none of those before. -/
theorem SeenOK.new {d : Dedup} (h : SeenOK es d) (hid : c.id = es.length)
    (hget : ∀ id, get? (Sha1.hash c.buf) d.mp = some id → id = c.id) :
    get? (Sha1.hash c.buf) d.mp = none ∧ ∀ c' r', (c', r') ∈ es → c'.buf ≠ c.buf := by
  have hnone : get? (Sha1.hash c.buf) d.mp = none := by
    cases hg : get? (Sha1.hash c.buf) d.mp with
    | none => rfl
    | some id =>
      obtain ⟨⟨c', r', hb, -⟩, -⟩ := h.first _ _ hg
      have hlt := (List.getElem?_eq_some_iff.1 hb).1
      exact absurd hlt (by rw [hget id hg, hid]; omega)
  refine ⟨hnone, fun c' r' he hbuf => ?_⟩
  have hseen := h.seen _ he
  rw [show (c', r').1.buf = c.buf from hbuf, hnone] at hseen
  cases hseen

/-- **A base.** -/
theorem MembersOK.base {m m' : Members ι} {f : φ} (h : MembersOK φ es m) (hid : c.id = es.length)
    (hfit : LawfulIndex.Fits ι f) (hget : ∀ id, get? (Sha1.hash c.buf) m.dedup.mp = some id → id = c.id)
    (hdedup : m'.dedup = (m.dedup.processChunk c).2) (hadd : Index.addFeature f c.id m.index = some m'.index)
    (hw : m'.writer.storage = m.writer.storage.writeBaseChunk c)
    (hcalls : m'.writer.calls = m.writer.calls ++ [.writeBase c]) : ∃ r, MembersOK φ (es ++ [(c, r)]) m' := by
  obtain ⟨hnone, hnew⟩ := h.seen.new hid hget
  obtain ⟨index, hadd', hready, hknown, -⟩ := LawfulIndex.add_ok c.id h.ready hfit
  obtain rfl : index = m'.index := Option.some.inj (hadd'.symm.trans hadd)
  obtain ⟨hrec, hdata⟩ := h.writer.records.writeChunk BaseChunk c.id c
  have hne : (BaseChunk : UInt8) ≠ DuplicateChunk := by decide
  set r := (recordAt m.writer.storage.dataFile.bytes.length BaseChunk c.id c.buf).info with hr
  refine ⟨r, by rw [hdedup]; exact h.seen.miss hnone hid hne, hready, fun x hx => ?_,
    h.writer.write (by rw [hw]; exact hrec) (by rw [hw]; exact hdata) hcalls rfl ?_
      (describes_write c (.inl ⟨rfl, hid⟩)) (fun ht => absurd ht hne) (fun ht => ?_) fun _ => hnew⟩
  · rcases hknown x hx with hx | rfl
    · exact known_concat (h.known x hx) _
    · exact ⟨c, r, getElem?_concat.2 (.inr ⟨hid, rfl⟩), rfl⟩
  · intro i x b hi
    rcases i with _ | i <;> simp at hi
  · exact absurd ht (by decide : (BaseChunk : UInt8) ≠ DeltaChunk)

/-- **A delta.** -/
theorem MembersOK.delta {m m' : Members ι} {f : φ} {b : ℕ} {s : Storage} (h : MembersOK φ es m)
    (hid : c.id = es.length) (hcount : es.length ≤ 2 ^ 32) (hfit : LawfulIndex.Fits ι f)
    (hget : ∀ id, get? (Sha1.hash c.buf) m.dedup.mp = some id → id = c.id)
    (hdedup : m'.dedup = (m.dedup.processChunk c).2) (ho : Index.getBaseChunkID f m.index = some (some b))
    (hindex : m'.index = m.index) (he : m.writer.storage.getDeltaEncodedChunk c b = some (c, s))
    (hw : m'.writer.storage = (s.writeDeltaChunk c b).2)
    (hcalls : m'.writer.calls = m.writer.calls ++ [.encode c b, .writeDelta c b]) :
    ∃ r, MembersOK φ (es ++ [(c, r)]) m' := by
  obtain ⟨hnone, hnew⟩ := h.seen.new hid hget
  obtain ⟨o, ho', hknown⟩ := LawfulIndex.get_ok h.ready hfit
  obtain ⟨c', r', hb, ht⟩ := h.known b (hknown b (Option.some.inj (ho'.symm.trans ho)))
  have hb32 : (UInt32.ofNat b).toNat = b :=
    UInt32.toNat_ofNat_of_lt' (lt_of_lt_of_le (List.getElem?_eq_some_iff.1 hb).1 hcount)
  obtain ⟨cache, rfl⟩ := h.writer.records.encode he
  obtain ⟨hrec, hdata⟩ := (h.writer.records.withCache cache).writeChunk DeltaChunk b c
  have hne : (DeltaChunk : UInt8) ≠ DuplicateChunk := by decide
  set r := (recordAt m.writer.storage.dataFile.bytes.length DeltaChunk b c.buf).info with hr
  refine ⟨r, by rw [hdedup]; exact h.seen.miss hnone hid hne, by rw [hindex]; exact h.ready,
    fun x hx => known_concat (h.known x (hindex ▸ hx)) _,
    h.writer.write (by rw [hw]; exact hrec) (by rw [hw]; exact hdata) hcalls rfl ?_
      (describes_write c (.inr rfl)) (fun ht => absurd ht hne) (fun _ => ?_) fun _ => hnew⟩
  · intro i x b' hi
    rcases i with _ | _ | i
    · -- the call itself: all records up to here are written
      obtain ⟨-, rfl⟩ := StoreOp.encode.inj (Option.some.inj hi)
      rw [List.take_zero, List.append_nil, h.writer.types, List.getElem?_map, hb, ← ht]
      rfl
    · simp at hi
    · simp at hi
  · show ∃ (c' : Chunk) (r' : ChunkMeta), es[(UInt32.ofNat b).toNat]? = some (c', r') ∧ r'.type = BaseChunk
    rw [hb32]
    exact ⟨c', r', hb, ht⟩

theorem membersOK_new (p : FeatureIndex ι φ) (cacheSize : ℕ) :
    MembersOK φ [] (⟨{}, p.index, { storage := .new cacheSize }⟩ : Members ι) where
  seen := ⟨fun digest id h => by simp [get?] at h, by simp⟩
  ready := p.ready
  known id h := absurd h (p.empty id)
  writer := ⟨⟨rfl, rfl, rfl⟩, founded_nil, rfl, fun i c b hi => by simp at hi⟩

variable [Inhabited φ] {feature : Chunk → φ}

/-- **A chunk keeps it**, whose id is its position. -/
theorem membersOK_step (hfits : ∀ c, LawfulIndex.Fits ι (feature c)) {m m' : Members ι} (h : MembersOK φ es m)
    (hid : c.id = es.length) (hcount : es.length < 2 ^ 32)
    (hsha : ∀ e ∈ es, Sha1.hash e.1.buf = Sha1.hash c.buf → e.1.buf = c.buf)
    (hp : processChunk feature m c = some m') : ∃ r, MembersOK φ (es ++ [(c, r)]) m' := by
  rcases processChunk_cases hp with ⟨id, hget, -, hdedup, hindex, hw, hcalls⟩ |
    ⟨hget, hdedup, ⟨-, hadd, hw, hcalls⟩ | ⟨b, s, ho, hindex, he, hw, hcalls⟩⟩
  · exact h.duplicate hcount.le hsha hget hdedup hindex hw hcalls
  · exact h.base hid (hfits c) hget hdedup hadd hw hcalls
  · exact h.delta hid hcount.le (hfits c) hget hdedup ho hindex he hw hcalls

/-- **Any number of chunks**, as long as their ids do not wrap. -/
theorem membersOK_run (p : FeatureIndex ι φ) (cacheSize : ℕ) (cs : List Chunk)
    (hids : cs.map Chunk.id = idsFrom 0 cs.length) (hcount : cs.length ≤ 2 ^ 32)
    (hsha : ∀ c ∈ cs, ∀ c' ∈ cs, Sha1.hash c.buf = Sha1.hash c'.buf → c.buf = c'.buf) {m : Members ι}
    (hp : processChunks p.feature cs ⟨{}, p.index, { storage := .new cacheSize }⟩ = some m) :
    ∃ es, es.map Prod.fst = cs ∧ MembersOK φ es m := by
  have hpos : ∀ (k : ℕ) (c : Chunk), cs[k]? = some c → c.id = k := by
    intro k c hk
    have hlt := (List.getElem?_eq_some_iff.1 hk).1
    rw [getElem?_id (by omega) hids hk, Nat.zero_add, Nat.mod_eq_of_lt (by omega)]
  clear hids
  induction cs using List.reverseRecOn generalizing m with
  | nil =>
    rw [← Option.some.inj hp]
    exact ⟨[], rfl, membersOK_new p cacheSize⟩
  | append_singleton cs c ih =>
    rw [List.length_append, List.length_singleton] at hcount
    unfold processChunks at hp ih
    rw [List.foldlM_append, Option.bind_eq_bind, Option.bind_eq_some_iff] at hp
    obtain ⟨m₁, h₁, hc⟩ := hp
    rw [List.foldlM_cons, Option.bind_eq_bind, Option.bind_eq_some_iff] at hc
    obtain ⟨m₂, hc, he⟩ := hc
    obtain rfl := Option.some.inj he
    obtain ⟨es, rfl, hes⟩ := ih (by omega)
      (fun x hx y hy => hsha x (List.mem_append_left _ hx) y (List.mem_append_left _ hy)) h₁
      fun k x hk => hpos k x (getElem?_concat.2 (.inl hk))
    rw [List.length_map] at hcount
    obtain ⟨r, hr⟩ := membersOK_step p.fits hes (hpos _ c (getElem?_concat.2 (.inr ⟨by rw [List.length_map], rfl⟩)))
      (by omega) (fun e he => hsha _ (List.mem_append_left _ (List.mem_map_of_mem he)) c (by simp)) hc
    exact ⟨_, by rw [List.map_append]; rfl, hr⟩

/-! ## Runs -/

/-- **The references of the pipeline are well founded.** After any run, whatever the schedule, when the
workers have returned: of at most `2^32` chunks without a collision, `meta_` has one record each. Record
`k` describes chunk `k`; a duplicate names the earliest chunk with its bytes, and that is none itself; a
delta names a base before it, which was written when it was encoded; and two chunks that are no
duplicates differ. -/
theorem pipeline_founded {κ : Type} [Chunker κ] [LawfulChunker κ] (p : FeatureIndex ι φ) {k₀ : κ}
    (hk₀ : Chunker.nextChunkId k₀ = 0) (cacheSize : ℕ) (files : List (String × FileContent))
    (schedule : List Actor) (r : PipelineRun κ ι φ)
    (hr : PipelineRun.exec p.feature schedule (.new k₀ p.index cacheSize files) = some r)
    (hret : r.pipe.AllReturned) :
    ∃ done css k, files = done ++ r.files ∧ DrainsFiles (done.map Prod.snd) k₀ css k ∧
      (css.flatten.length ≤ 2 ^ 32 →
        (∀ c ∈ css.flatten, ∀ c' ∈ css.flatten, Sha1.hash c.buf = Sha1.hash c'.buf → c.buf = c'.buf) →
        ∃ es, es.map Prod.fst = css.flatten ∧
          RecordsOK (membersOf r.pipe.loc).writer.storage (es.map Prod.snd) ∧
          Founded es (membersOf r.pipe.loc).writer.storage.dataFile.bytes ∧
          AskedWritten (membersOf r.pipe.loc).writer.calls) := by
  have hrun := exec_ok rfl schedule (runOK_new p.feature hk₀ p.index cacheSize files) hr
  obtain ⟨-, done, css, metas, hfiles, hadded, -⟩ := hrun.of_returned rfl hret
  refine ⟨done, css, _, hfiles, hadded.drained, fun hcount hsha => ?_⟩
  obtain ⟨es, hes, hok⟩ := membersOK_run p cacheSize css.flatten hadded.ids hcount hsha hadded.processed
  exact ⟨es, hes, hok.writer.records, hok.writer.founded, hok.writer.asked⟩

/-- One byte twice, cut into chunks of one byte. -/
theorem pipeline_founded_twice : ∃ (schedule : List Actor) (r : PipelineRun FastCDC BestFitIndex (Feature ℚ))
    (es : List (Chunk × ChunkMeta)),
    PipelineRun.exec OdessSubfeatures.call schedule
        (.new (FastCDC.new 1 1 0) (BestFitIndex.new (.byInsertion _) 12) 1 [("a", some [7, 7])]) = some r ∧
      es.map Prod.fst = [⟨[7], 0⟩, ⟨[7], 1⟩] ∧ RecordsOK (membersOf r.pipe.loc).writer.storage (es.map Prod.snd) ∧
      Founded es (membersOf r.pipe.loc).writer.storage.dataFile.bytes ∧
      AskedWritten (membersOf r.pipe.loc).writer.calls := by
  let p : FeatureIndex BestFitIndex (Feature ℚ) := .bestfit (.byInsertion _)
  obtain ⟨m, hm, -⟩ := repeats_ok p [7] 1 (n := 1) (by decide) (by decide) (by decide)
  obtain ⟨schedule, r, k, hr, hfiles, hret, hd, -⟩ :=
    exists_exec_repeats p 1 le_rfl (by decide) 0 2 7 "a" hm
  obtain ⟨done, css, k', hdone, hdrains, h⟩ := pipeline_founded p rfl 1 _ schedule r hr hret
  rw [hfiles, List.append_nil] at hdone
  subst hdone
  obtain ⟨rfl, -⟩ := hd.unique hdrains
  obtain ⟨es, hes, hrec, hfound, hasked⟩ := h (by decide) (by decide +kernel)
  exact ⟨schedule, r, es, hr, hes, hrec, hfound, hasked⟩

/-- A file of `2^32 + 1` equal bytes, cut into chunks of one byte: the last chunk has the id of the
first again, and neither record is one of a duplicate. -/
theorem pipeline_not_founded : ∃ (schedule : List Actor) (r : PipelineRun FastCDC BestFitIndex (Feature ℚ))
    (cs : List Chunk) (k : FastCDC) (ms : List ChunkMeta) (r₀ r₁ : ChunkMeta),
    PipelineRun.exec OdessSubfeatures.call schedule
        (.new (FastCDC.new 1 1 0) (BestFitIndex.new (.byInsertion _) 12) 1
          [("a", some (List.replicate (2 ^ 32 + 1) 7))]) = some r ∧
      r.files = [] ∧ r.pipe.AllReturned ∧
      DrainsFiles [some (List.replicate (2 ^ 32 + 1) 7)] (FastCDC.new 1 1 0) [cs] k ∧ (∀ c ∈ cs, c.buf = [7]) ∧
      cs.length = 2 ^ 32 + 1 ∧ RecordsOK (membersOf r.pipe.loc).writer.storage ms ∧ ms.length = 2 ^ 32 + 1 ∧
      ms[0]? = some r₀ ∧ r₀.type ≠ DuplicateChunk ∧ ms[2 ^ 32]? = some r₁ ∧ r₁.type ≠ DuplicateChunk := by
  let p : FeatureIndex BestFitIndex (Feature ℚ) := .bestfit (.byInsertion _)
  obtain ⟨m, ms, r₁, hm, hrec, hlen, h₀, h₁, ht⟩ := repeats_wrap p [7] 1 (by decide) (by decide)
  obtain ⟨schedule, r, k, hr, hfiles, hret, hd, rfl⟩ :=
    exists_exec_repeats p 1 le_rfl (by decide) 0 (2 ^ 32 + 1) 7 "a" hm
  rw [Nat.mul_one] at hr hd
  refine ⟨schedule, r, _, k, ms, firstRecord [7], r₁, hr, hfiles, hret, hd, fun c hc => ?_, ?_, hrec, hlen, h₀, ?_,
    h₁, ht⟩
  · obtain ⟨id, -, rfl⟩ := List.mem_map.1 hc
    rfl
  · unfold repeats
    rw [List.length_map, length_idsFrom]
  · exact (by decide : (BaseChunk : UInt8) ≠ DuplicateChunk)

end ChunkGrouping
