import ChunkGrouping.Proof.FastCDC
import ChunkGrouping.Proof.IndexLaws
import ChunkGrouping.Proof.Layout
import ChunkGrouping.Proof.Readback
import ChunkGrouping.Proof.Sequential

/-!
# `AddFile` keeps the store well grouped

`SeqLog d ws`: the store is the log `ws`, in which every delta names a base before it,
and the index knows the ids of bases only. A chunk's id is its position modulo `2^32`;
`SeqOK d ws` is the same with at most `2^32` records, where it is the position.

* `addChunk_log`, `addFile_log`, `addFiles_log`: what a call that returns leaves in the
  store and in the counters.
* `addChunk_returns`, `addFile_returns`, `addFiles_returns`: with a cache it returns.
* `addFiles_ok`: both, for `SeqOK`.
-/

namespace ChunkGrouping

/-- Record `k` is a base that names itself, or a delta that names a base before it. -/
def DepthOne (ws : List Written) : Prop :=
  ∀ (k : ℕ) (w : Written), ws[k]? = some w →
    (w.type = BaseChunk ∧ w.baseChunkId = k) ∨
      (w.type = DeltaChunk ∧ w.baseChunkId < k ∧
        ∃ w', ws[w.baseChunkId]? = some w' ∧ w'.type = BaseChunk)

variable {ws us : List Written}

/-- The records of such a log are well grouped. -/
theorem DepthOne.wellGrouped (h : DepthOne ws) (hb : ∀ w ∈ ws, w.baseChunkId < 2 ^ 32) :
    WellGrouped (recordsFrom 0 ws) := by
  have hread : ∀ {k : ℕ} {r : Record}, (recordsFrom 0 ws)[k]? = some r → ∃ w, ws[k]? = some w ∧
      r.info.type = w.type ∧ r.info.baseChunkId.toNat = w.baseChunkId := by
    intro k r hr
    rw [getElem?_recordsFrom, Option.map_eq_some_iff] at hr
    obtain ⟨w, hw, rfl⟩ := hr
    exact ⟨w, hw, rfl, UInt32.toNat_ofNat_of_lt' (hb w (List.mem_of_getElem? hw))⟩
  refine ⟨fun k r hr ht => ?_, fun r hr ht => ?_⟩
  · obtain ⟨w, hw, htw, hid⟩ := hread hr
    rcases h k w hw with ⟨-, hk⟩ | ⟨htd, -⟩
    · rw [hid, hk]
    · exact absurd ((htw.symm.trans ht).symm.trans htd) (by decide)
  · obtain ⟨k, hk⟩ := List.mem_iff_getElem?.1 hr
    obtain ⟨w, hw, htw, hid⟩ := hread hk
    rcases h k w hw with ⟨htb, -⟩ | ⟨-, -, w', hw', hb'⟩
    · exact absurd (htb.symm.trans (htw.symm.trans ht)) (by decide)
    · exact ⟨_, by rw [hid]; exact record_log hw', hb'⟩

/-- Record `k` is a base with the id of chunk `k`, or a delta with the id of a base before it. -/
def RefsOK (ws : List Written) : Prop :=
  ∀ (k : ℕ) (w : Written), ws[k]? = some w →
    (w.type = BaseChunk ∧ w.baseChunkId = k % 2 ^ 32) ∨
      (w.type = DeltaChunk ∧ ∃ j w', j < k ∧ ws[j]? = some w' ∧ w'.type = BaseChunk ∧
        w.baseChunkId = j % 2 ^ 32)

theorem RefsOK.append {w : Written} (h : RefsOK ws)
    (hw : (w.type = BaseChunk ∧ w.baseChunkId = ws.length % 2 ^ 32) ∨
      (w.type = DeltaChunk ∧ ∃ j w', ws[j]? = some w' ∧ w'.type = BaseChunk ∧ w.baseChunkId = j % 2 ^ 32)) :
    RefsOK (ws ++ [w]) := by
  intro k v hv
  rcases getElem?_concat.1 hv with hv | ⟨rfl, rfl⟩
  · rcases h k v hv with hb | ⟨ht, j, w', hlt, hw', hb⟩
    · exact .inl hb
    · exact .inr ⟨ht, j, w', hlt, getElem?_concat.2 (.inl hw'), hb⟩
  · rcases hw with hb | ⟨ht, j, w', hw', hb⟩
    · exact .inl hb
    · exact .inr ⟨ht, j, w', (List.getElem?_eq_some_iff.1 hw').1, getElem?_concat.2 (.inl hw'), hb⟩

/-- With at most `2^32` records an id is a position. -/
theorem refsOK_iff (hcount : ws.length ≤ 2 ^ 32) : RefsOK ws ↔ DepthOne ws := by
  have hmod : ∀ {k : ℕ} {w : Written}, ws[k]? = some w → k % 2 ^ 32 = k := fun hw =>
    Nat.mod_eq_of_lt (lt_of_lt_of_le (List.getElem?_eq_some_iff.1 hw).1 hcount)
  constructor
  · intro h k w hw
    rcases h k w hw with ⟨ht, hb⟩ | ⟨ht, j, w', hlt, hw', htb, hb⟩
    · exact .inl ⟨ht, by rw [hb, hmod hw]⟩
    · rw [hmod hw'] at hb
      exact .inr ⟨ht, by rw [hb]; exact hlt, w', by rw [hb]; exact hw', htb⟩
  · intro h k w hw
    rcases h k w hw with ⟨ht, hb⟩ | ⟨ht, hlt, w', hw', htb⟩
    · exact .inl ⟨ht, by rw [hb, hmod hw]⟩
    · exact .inr ⟨ht, _, w', hlt, hw', htb, (hmod hw').symm⟩

/-- The base ids of such a log are below its length. -/
theorem RefsOK.base_lt (h : RefsOK ws) {w : Written} (hw : w ∈ ws) : w.baseChunkId < ws.length := by
  obtain ⟨k, hk⟩ := List.mem_iff_getElem?.1 hw
  have hlt := (List.getElem?_eq_some_iff.1 hk).1
  rcases h k w hk with ⟨-, hb⟩ | ⟨-, j, w', hj, -, -, hb⟩
  · rw [hb]; exact lt_of_le_of_lt (Nat.mod_le _ _) hlt
  · rw [hb]; exact lt_of_le_of_lt (Nat.mod_le _ _) (hj.trans hlt)

/-- The bytes `total_size_origin_` gets when a record is written: those of a base. -/
def Written.baseLen (w : Written) : ℕ := if w.type = BaseChunk then w.bytes.length else 0

/-- The bytes of a delta. -/
def Written.deltaLen (w : Written) : ℕ := if w.type = DeltaChunk then w.bytes.length else 0

theorem sum_deltaLen (offset : ℕ) (ws : List Written) :
    ((allDeltaIds (recordsFrom offset ws)).map fun k => (bytesOf (recordsFrom offset ws) k).length).sum =
      (ws.map Written.deltaLen).sum := by
  have hpos := filter_eq_positions (fun r => r.info.type = DeltaChunk) (recordsFrom offset ws)
  have hsum := congrArg (fun l => (l.map List.length).sum) hpos
  simp only [List.map_map] at hsum
  refine hsum.symm.trans ?_
  clear hpos hsum
  induction ws generalizing offset with
  | nil => rfl
  | cons w ws ih =>
    rw [recordsFrom, List.map_cons, List.sum_cons, ← ih (offset + w.bytes.length), List.filter_cons]
    unfold Written.deltaLen
    by_cases ht : w.type = DeltaChunk <;> simp [recordAt, ht]

/-- **Every byte of such a log is a base's or a delta's.** -/
theorem DepthOne.sum_len (h : DepthOne ws) :
    (ws.map Written.baseLen).sum + (ws.map Written.deltaLen).sum = (ws.map fun w => w.bytes.length).sum := by
  rw [← List.sum_map_add]
  refine congrArg List.sum (List.map_congr_left fun w hw => ?_)
  obtain ⟨k, hk⟩ := List.mem_iff_getElem?.1 hw
  have hbd : BaseChunk ≠ DeltaChunk := by decide
  rcases h k w hk with ⟨ht, -⟩ | ⟨ht, -⟩
  · simp [Written.baseLen, Written.deltaLen, ht, hbd]
  · simp [Written.baseLen, Written.deltaLen, ht, hbd.symm]

/-! ## Chunks -/

variable {κ ι φ : Type} [Index ι φ] [LawfulIndex ι φ]

/-- **The state between two chunks**, however many there were. -/
structure SeqLog (φ : Type) [Index ι φ] [LawfulIndex ι φ] (d : DeltaState ι) (ws : List Written) : Prop where
  log : StoreLog d.storage ws
  refs : RefsOK ws
  ready : LawfulIndex.Ready φ d.index
  known : ∀ id, LawfulIndex.known φ d.index id →
    ∃ j w, ws[j]? = some w ∧ w.type = BaseChunk ∧ id = j % 2 ^ 32

/-- **The state between two chunks.** -/
structure SeqOK (φ : Type) [Index ι φ] [LawfulIndex ι φ] (d : DeltaState ι) (ws : List Written) : Prop where
  log : LogOK d.storage ws
  depthOne : DepthOne ws
  ready : LawfulIndex.Ready φ d.index
  known : ∀ id, LawfulIndex.known φ d.index id → ∃ w, ws[id]? = some w ∧ w.type = BaseChunk

theorem SeqOK.wellGrouped {d : DeltaState ι} (h : SeqOK φ d ws) : WellGrouped (recordsFrom 0 ws) :=
  h.depthOne.wellGrouped h.log.base

theorem SeqOK.seqLog {d : DeltaState ι} (h : SeqOK φ d ws) : SeqLog φ d ws := by
  refine ⟨h.log.storeLog, (refsOK_iff h.log.count).2 h.depthOne, h.ready, fun id hid => ?_⟩
  obtain ⟨w, hw, ht⟩ := h.known id hid
  have hlt := (List.getElem?_eq_some_iff.1 hw).1
  have hcount := h.log.count
  exact ⟨id, w, hw, ht, (Nat.mod_eq_of_lt (by omega)).symm⟩

theorem SeqLog.seqOK {d : DeltaState ι} (h : SeqLog φ d ws) (hc : CacheLog d.storage.cache ws)
    (hcount : ws.length ≤ 2 ^ 32) : SeqOK φ d ws := by
  refine ⟨⟨h.log.store, h.log.data, h.log.short, h.log.base, hcount, hc⟩, (refsOK_iff hcount).1 h.refs,
    h.ready, fun id hid => ?_⟩
  obtain ⟨j, w, hw, ht, rfl⟩ := h.known id hid
  have hlt := (List.getElem?_eq_some_iff.1 hw).1
  rw [Nat.mod_eq_of_lt (by omega)]
  exact ⟨w, hw, ht⟩

theorem seqLog_new (p : FeatureIndex ι φ) (cacheSize : ℕ) :
    SeqLog φ { index := p.index, storage := .new cacheSize } [] :=
  ⟨storeLog_new cacheSize, fun k w h => by simp at h, p.ready, fun id h => absurd h (p.empty id)⟩

/-- The counters after records were written. -/
def Totals.addBases (us : List Written) (t : Totals) : Totals :=
  { t with totalSizeOrigin := t.totalSizeOrigin + (us.map Written.baseLen).sum }

/-- **A chunk** becomes one record with its bytes. -/
theorem addChunk_log {feature : Chunk → φ} (hfits : ∀ c, LawfulIndex.Fits ι (feature c)) {d d' : DeltaState ι}
    (h : SeqLog φ d ws) {c : Chunk} (hid : c.id = ws.length % 2 ^ 32) (hlen : c.len ≤ 65535)
    (hbytes : (logBytes ws).length < 2 ^ 64) {m m' : FileMeta} (ha : d.addChunk feature c m = some (m', d')) :
    ∃ w, SeqLog φ d' (ws ++ [w]) ∧ w.bytes = c.buf ∧ d'.totals = d.totals.addBases [w] := by
  have hbd : DeltaChunk ≠ BaseChunk := by decide
  have hold : ∀ {w : Written} {j : ℕ} {v : Written}, ws[j]? = some v → (ws ++ [w])[j]? = some v := fun hv =>
    (List.getElem?_append_left (List.getElem?_eq_some_iff.1 hv).1).trans hv
  have hlt : ∀ j : ℕ, j % 2 ^ 32 < 2 ^ 32 := fun j => Nat.mod_lt _ (by omega)
  obtain ⟨-, ⟨index, -, hadd, rfl, -⟩ | ⟨b, s, ho, hdelta, rfl, -⟩⟩ := addChunk_cases ha
  · obtain ⟨index', hadd', hready, hknown, -⟩ := LawfulIndex.add_ok c.id h.ready (hfits c)
    obtain rfl := Option.some.inj (hadd.symm.trans hadd')
    refine ⟨⟨BaseChunk, c.id, c.buf⟩, ⟨?_, h.refs.append (.inl ⟨rfl, hid⟩), hready, fun id hi => ?_⟩, rfl, ?_⟩
    · exact (h.log.write hlen hbytes BaseChunk (by rw [hid]; exact hlt _)).1
    · rcases hknown id hi with hi | rfl
      · obtain ⟨j, w, hw, ht, rfl⟩ := h.known id hi
        exact ⟨j, w, hold hw, ht, rfl⟩
      · exact ⟨ws.length, ⟨BaseChunk, c.id, c.buf⟩, by simp, rfl, hid⟩
    · simp [DeltaState.writeBaseChunk, Totals.addBases, Written.baseLen, Chunk.len]
  · obtain ⟨o, ho', hknown⟩ := LawfulIndex.get_ok h.ready (hfits c)
    obtain rfl : some b = o := Option.some.inj (ho.symm.trans ho')
    obtain ⟨j, w', hw', htb, rfl⟩ := h.known b (hknown b rfl)
    have hj := (List.getElem?_eq_some_iff.1 hw').1
    obtain ⟨cache, rfl⟩ := h.log.store.records.encode hdelta
    refine ⟨⟨DeltaChunk, j % 2 ^ 32, c.buf⟩, ⟨?_, h.refs.append (.inr ⟨rfl, j, w', hw', htb, rfl⟩), h.ready,
      fun id hi => ?_⟩, rfl, ?_⟩
    · exact ((h.log.withCache cache).write hlen hbytes DeltaChunk (hlt _)).1
    · obtain ⟨j, w, hw, ht, rfl⟩ := h.known id hi
      exact ⟨j, w, hold hw, ht, rfl⟩
    · simp [DeltaState.writeDeltaChunk, Totals.addBases, Written.baseLen, hbd]

/-- **With a cache** a chunk is always added. -/
theorem addChunk_returns {feature : Chunk → φ} (hfits : ∀ c, LawfulIndex.Fits ι (feature c)) {d : DeltaState ι}
    (h : SeqLog φ d ws) (hc : CacheLog d.storage.cache ws) (c : Chunk) (m : FileMeta) :
    ∃ m' d', d.addChunk feature c m = some (m', d') ∧ CacheLog d'.storage.cache ws := by
  obtain ⟨o, ho, hknown⟩ := LawfulIndex.get_ok h.ready (hfits c)
  unfold DeltaState.addChunk
  simp only [ho, Option.bind_eq_bind, Option.bind_some]
  cases o with
  | none =>
    obtain ⟨index, hadd, -⟩ := LawfulIndex.add_ok c.id h.ready (hfits c)
    refine ⟨_, _, by dsimp only; rw [hadd]; rfl, ?_⟩
    exact hc
  | some b =>
    obtain ⟨j, w', hw', -, rfl⟩ := h.known b (hknown b rfl)
    have hlt : j % 2 ^ 32 < ws.length :=
      lt_of_le_of_lt (Nat.mod_le _ _) (List.getElem?_eq_some_iff.1 hw').1
    obtain ⟨cache, he, hc'⟩ := h.log.encode_ok hc c hlt
    refine ⟨_, _, by dsimp only; rw [he]; rfl, ?_⟩
    exact hc'

/-- Chunks that can be written after the log: numbered on, short enough for the size field, and not
more bytes than an offset can name. -/
structure AllFit (ws : List Written) (cs : List Chunk) : Prop where
  ids : cs.map Chunk.id = idsFrom (ws.length % 2 ^ 32) cs.length
  len : ∀ c ∈ cs, c.len ≤ 65535
  bytes : (logBytes ws).length + (cs.map Chunk.len).sum < 2 ^ 64

theorem AllFit.tail {c : Chunk} {cs : List Chunk} (h : AllFit ws (c :: cs)) {w : Written}
    (hw : w.bytes = c.buf) : AllFit (ws ++ [w]) cs := by
  have hb := h.bytes
  rw [List.map_cons, List.sum_cons] at hb
  refine ⟨?_, fun c' hc' => h.len c' (List.mem_cons_of_mem _ hc'), ?_⟩
  · rw [(List.cons.inj h.ids).2, List.length_append, List.length_singleton]
    congr 1
    unfold nextId
    omega
  · simp only [logBytes, List.flatMap_append, List.flatMap_singleton, List.length_append, hw] at hb ⊢
    unfold Chunk.len at hb ⊢
    omega

/-- **The chunks of a file** become one record each. -/
theorem addChunks_log {feature : Chunk → φ} (hfits : ∀ c, LawfulIndex.Fits ι (feature c))
    (cs : List Chunk) : ∀ {ws : List Written} {d d' : DeltaState ι} {m m' : FileMeta}, SeqLog φ d ws →
      AllFit ws cs → addChunks feature cs m d = some (m', d') →
      ∃ us, SeqLog φ d' (ws ++ us) ∧ us.map Written.bytes = cs.map Chunk.buf ∧
        d'.totals = d.totals.addBases us := by
  induction cs with
  | nil =>
    intro ws d d' m m' h _ ha
    obtain ⟨-, rfl⟩ := Prod.mk.inj (Option.some.inj ha)
    exact ⟨[], by simpa using h, rfl, rfl⟩
  | cons c cs ih =>
    intro ws d d' m m' h hfit ha
    simp only [addChunks, Option.bind_eq_bind, Option.bind_eq_some_iff] at ha
    obtain ⟨⟨m₁, d₁⟩, h₁, ha⟩ := ha
    have hb := hfit.bytes
    obtain ⟨w, hs₁, hw, ht₁⟩ := addChunk_log hfits h (List.cons.inj hfit.ids).1
      (hfit.len c List.mem_cons_self) (by omega) h₁
    obtain ⟨us, hs₂, hus, ht₂⟩ := ih hs₁ (hfit.tail hw) ha
    refine ⟨w :: us, by simpa using hs₂, by simp [hw, hus], ?_⟩
    rw [ht₂, ht₁]
    simp [Totals.addBases, Nat.add_assoc]

/-- **With a cache** the chunks of a file are always added. -/
theorem addChunks_returns {feature : Chunk → φ} (hfits : ∀ c, LawfulIndex.Fits ι (feature c))
    (cs : List Chunk) : ∀ {ws : List Written} {d : DeltaState ι} (m : FileMeta), SeqLog φ d ws →
      CacheLog d.storage.cache ws → AllFit ws cs →
      ∃ m' d' us, addChunks feature cs m d = some (m', d') ∧ SeqLog φ d' (ws ++ us) ∧
        CacheLog d'.storage.cache (ws ++ us) ∧ us.map Written.bytes = cs.map Chunk.buf ∧
        d'.totals = d.totals.addBases us := by
  induction cs with
  | nil =>
    intro ws d m h hc _
    exact ⟨m, d, [], rfl, by simpa using h, by simpa using hc, rfl, rfl⟩
  | cons c cs ih =>
    intro ws d m h hc hfit
    have hb := hfit.bytes
    obtain ⟨m₁, d₁, h₁, hc₁⟩ := addChunk_returns hfits h hc c m
    obtain ⟨w, hs₁, hw, ht₁⟩ := addChunk_log hfits h (List.cons.inj hfit.ids).1
      (hfit.len c List.mem_cons_self) (by omega) h₁
    obtain ⟨m₂, d₂, us, h₂, hs₂, hc₂, hus, ht₂⟩ := ih m₁ hs₁ (hc₁.append w) (hfit.tail hw)
    refine ⟨m₂, d₂, w :: us, by simp [addChunks, h₁, h₂], by simpa using hs₂, by simpa using hc₂,
      by simp [hw, hus], ?_⟩
    rw [ht₂, ht₁]
    simp [Totals.addBases, Nat.add_assoc]

/-- Chunks that can be written after `n` others. -/
structure AllNext (n : ℕ) (cs : List Chunk) : Prop where
  ids : cs.map Chunk.id = idsFrom n cs.length
  count : n + cs.length ≤ 2 ^ 32
  len : ∀ c ∈ cs, c.len ≤ 65535

theorem sum_len_le {cs : List Chunk} (h : ∀ c ∈ cs, c.len ≤ 65535) :
    (cs.map Chunk.len).sum ≤ cs.length * 65535 := by
  have := List.sum_le_card_nsmul (cs.map Chunk.len) 65535 fun n hn => by
    obtain ⟨c, hc, rfl⟩ := List.mem_map.1 hn
    exact h c hc
  simpa using this

theorem AllNext.allFit {cs : List Chunk} (h : AllNext ws.length cs)
    (hws : ∀ w ∈ ws, w.bytes.length ≤ 65535) : AllFit ws cs := by
  have hcount := h.count
  refine ⟨?_, h.len, ?_⟩
  · rw [h.ids]
    cases cs with
    | nil => rfl
    | cons c cs =>
      rw [List.length_cons] at hcount
      rw [Nat.mod_eq_of_lt (by omega)]
  · have h1 := length_logBytes_le hws
    have h2 := sum_len_le h.len
    omega

/-- **The chunks of a file**, when there are at most `2^32` in all. -/
theorem addChunks_ok {feature : Chunk → φ} (hfits : ∀ c, LawfulIndex.Fits ι (feature c))
    (cs : List Chunk) (ws : List Written) (d : DeltaState ι) (m : FileMeta) (h : SeqOK φ d ws)
    (ha : AllNext ws.length cs) :
    ∃ m' d' us, addChunks feature cs m d = some (m', d') ∧ SeqOK φ d' (ws ++ us) ∧
      us.map Written.bytes = cs.map Chunk.buf ∧ d'.totals = d.totals.addBases us := by
  obtain ⟨m', d', us, hadd, hs, hc, hus, ht⟩ :=
    addChunks_returns hfits cs m h.seqLog h.log.cache (ha.allFit h.log.short)
  have hl : us.length = cs.length := by simpa using congrArg List.length hus
  refine ⟨m', d', us, hadd, hs.seqOK hc ?_, hus, ht⟩
  rw [List.length_append, hl]
  exact ha.count

/-! ## Files -/

variable [Chunker κ]

/-- The counters after an `AddFile` that wrote `us` behind `ws`. -/
def Totals.afterFile (codec : Codec) (t : Totals) (ws us : List Written) : Totals :=
  let rs := recordsFrom 0 (ws ++ us)
  ((t.addBases us).addSingles codec rs).add codec (storeWork 16 rs)

/-- Grouping the log changes no byte of it. -/
theorem SeqLog.group {d : DeltaState ι} (h : SeqLog φ d ws) (codec : Codec) (t : Totals) :
    ∃ out, d.storage.groupByBase codec 16 t =
      some ⟨d.storage, (t.addSingles codec (recordsFrom 0 ws)).add codec (storeWork 16 (recordsFrom 0 ws)), out⟩ := by
  refine ⟨_, groupByBase_ok codec (by omega) h.log.store (fun b r hr hrb => ?_) t⟩
  obtain ⟨k, hk⟩ := List.mem_iff_getElem?.1 hr
  rw [getElem?_recordsFrom, Option.map_eq_some_iff] at hk
  obtain ⟨w, hw, rfl⟩ := hk
  have hwm := List.mem_of_getElem? hw
  rw [length_recordsFrom, ← hrb.2]
  exact lt_of_le_of_lt (le_of_eq (UInt32.toNat_ofNat_of_lt' (h.log.base w hwm))) (h.refs.base_lt hwm)

/-- **An `AddFile`.** -/
theorem addFile_log {codec : Codec} {feature : Chunk → φ} (hfits : ∀ c, LawfulIndex.Fits ι (feature c))
    {d d' : DeltaCompression κ ι} (h : SeqLog φ d.toDeltaState ws) {content : FileContent} {cs : List Chunk}
    {k : κ} (hd : drainFile content d.chunker = some (cs, k)) (ha : AllFit ws cs) {fileName : String}
    (hadd : d.addFile codec feature fileName content = some d') :
    ∃ us, SeqLog φ d'.toDeltaState (ws ++ us) ∧ us.map Written.bytes = cs.map Chunk.buf ∧ d'.chunker = k ∧
      d'.totals = d.totals.afterFile codec ws us := by
  obtain ⟨cs', k', m, s, g, hd', hs, hg, hd₁, rfl, -⟩ := addFile_cases hadd
  obtain ⟨rfl, rfl⟩ := Prod.mk.inj (Option.some.inj (hd.symm.trans hd'))
  obtain ⟨us, hok, hus, ht⟩ := addChunks_log hfits cs h ha hs
  obtain ⟨out, hg'⟩ := hok.group codec s.totals
  obtain rfl := Option.some.inj (hg.symm.trans hg')
  refine ⟨us, ?_, hus, rfl, ?_⟩
  · rw [hd₁]
    exact ⟨hok.log, hok.refs, hok.ready, hok.known⟩
  · rw [show d'.totals = d'.toDeltaState.totals from rfl, hd₁]
    unfold Totals.afterFile
    rw [← ht]

/-- **With a cache** it returns. -/
theorem addFile_returns (codec : Codec) {feature : Chunk → φ} (hfits : ∀ c, LawfulIndex.Fits ι (feature c))
    {d : DeltaCompression κ ι} (h : SeqLog φ d.toDeltaState ws) (hc : CacheLog d.storage.cache ws)
    {content : FileContent} {cs : List Chunk} {k : κ} (hd : drainFile content d.chunker = some (cs, k))
    (ha : AllFit ws cs) (fileName : String) :
    ∃ d' us, d.addFile codec feature fileName content = some d' ∧ SeqLog φ d'.toDeltaState (ws ++ us) ∧
      CacheLog d'.storage.cache (ws ++ us) ∧ us.map Written.bytes = cs.map Chunk.buf ∧ d'.chunker = k ∧
      d'.totals = d.totals.afterFile codec ws us := by
  obtain ⟨m, s, us, hs, hok, hcache, hus, ht⟩ :=
    addChunks_returns hfits cs ⟨fileName, 2 ^ 32 - 1, none⟩ h hc ha
  obtain ⟨out, hg⟩ := hok.group codec s.totals
  have hdrain : drainLoop (Chunker.remainingFileLen (Chunker.reinitWithFile content d.chunker).2 + 1)
      (Chunker.reinitWithFile content d.chunker).2 = some (cs, k) := hd
  unfold DeltaCompression.addFile
  simp only [addLoop_eq, hdrain, Option.bind_eq_bind, Option.bind_some, hs, Option.map_some, hg]
  refine ⟨_, us, rfl, ⟨hok.log, hok.refs, hok.ready, hok.known⟩, hcache, hus, rfl, ?_⟩
  unfold Totals.afterFile
  rw [← ht]

/-- The counters after a run whose files wrote `uss`. -/
def Totals.afterFiles (codec : Codec) : Totals → List Written → List (List Written) → Totals
  | t, _, [] => t
  | t, ws, us :: uss => (t.afterFile codec ws us).afterFiles codec (ws ++ us) uss

variable [LawfulChunker κ]

/-- What the chunks of the remaining files are to a log: numbered on and fitting. -/
structure FilesFit (ws : List Written) (files : List FileContent) (k : κ) (css : List (List Chunk)) : Prop where
  drained : ∃ k', drainFiles files k = some (css, k')
  next : Chunker.nextChunkId k = ws.length % 2 ^ 32
  len : ∀ c ∈ css.flatten, c.len ≤ 65535
  bytes : (logBytes ws).length + (css.flatten.map Chunk.len).sum < 2 ^ 64

/-- The first file, and what the others are to the log after it. -/
theorem FilesFit.cons {content : FileContent} {files : List FileContent} {k : κ} {css : List (List Chunk)}
    (h : FilesFit ws (content :: files) k css) :
    ∃ cs k₁ css', css = cs :: css' ∧ drainFile content k = some (cs, k₁) ∧ AllFit ws cs ∧
      ∀ us, us.map Written.bytes = cs.map Chunk.buf → FilesFit (ws ++ us) files k₁ css' := by
  obtain ⟨k', hd⟩ := h.drained
  simp only [drainFiles, Option.bind_eq_bind, Option.bind_eq_some_iff, Option.some.injEq,
    Prod.mk.injEq] at hd
  obtain ⟨⟨cs, k₁⟩, hcs, ⟨css', k₂⟩, hcss, rfl, -⟩ := hd
  obtain ⟨hids, hnext⟩ := ids_drainFile hcs
  have hlen := h.len
  have hb := h.bytes
  simp only [List.flatten_cons, List.map_append, List.sum_append, List.mem_append] at hlen hb
  refine ⟨cs, k₁, css', rfl, hcs, ⟨by rw [hids, h.next], fun c hc => hlen c (.inl hc), by omega⟩,
    fun us hus => ⟨⟨k₂, hcss⟩, ?_, fun c hc => hlen c (.inr hc), ?_⟩⟩
  · have hl : us.length = cs.length := by simpa using congrArg List.length hus
    rw [hnext, h.next, iterate_nextId (Nat.mod_lt _ (by omega)), List.length_append, hl, Nat.mod_add_mod]
  · have hsum : (logBytes us).length = (cs.map Chunk.len).sum := by
      have := congrArg (fun l => (l.map List.length).sum) hus
      simp only [List.map_map] at this
      rw [logBytes, List.length_flatMap]
      exact this
    rw [logBytes, List.flatMap_append, List.length_append]
    unfold logBytes at hsum hb
    omega

/-- **A run of `AddFile` calls.** -/
theorem addFiles_log {codec : Codec} {feature : Chunk → φ} (hfits : ∀ c, LawfulIndex.Fits ι (feature c))
    (files : List (String × FileContent)) : ∀ {ws : List Written} {d d' : DeltaCompression κ ι}
      {css : List (List Chunk)}, SeqLog φ d.toDeltaState ws → FilesFit ws (files.map Prod.snd) d.chunker css →
      d.addFiles codec feature files = some d' →
      ∃ uss, SeqLog φ d'.toDeltaState (ws ++ uss.flatten) ∧
        uss.map (List.map Written.bytes) = css.map (List.map Chunk.buf) ∧
        d'.totals = d.totals.afterFiles codec ws uss := by
  induction files with
  | nil =>
    intro ws d d' css h hfit hadd
    obtain ⟨k, hd⟩ := hfit.drained
    obtain ⟨rfl, -⟩ := Prod.mk.inj (Option.some.inj hd)
    rw [← Option.some.inj hadd]
    exact ⟨[], by simpa using h, rfl, rfl⟩
  | cons file files ih =>
    intro ws d d' css h hfit hadd
    obtain ⟨name, content⟩ := file
    obtain ⟨cs, k₁, css, rfl, hcs, ha, hrest⟩ := hfit.cons
    simp only [DeltaCompression.addFiles, Option.bind_eq_bind, Option.bind_eq_some_iff] at hadd
    obtain ⟨d₁, h₁, hadd⟩ := hadd
    obtain ⟨us, hs₁, hus, hk₁, ht₁⟩ := addFile_log hfits h hcs ha h₁
    obtain ⟨uss, hs₂, huss, ht₂⟩ := ih hs₁ (by rw [hk₁]; exact hrest us hus) hadd
    refine ⟨us :: uss, by simpa using hs₂, by simp [hus, huss], ?_⟩
    rw [ht₂, ht₁]
    rfl

/-- **With a cache** it returns. -/
theorem addFiles_returns (codec : Codec) {feature : Chunk → φ} (hfits : ∀ c, LawfulIndex.Fits ι (feature c))
    (files : List (String × FileContent)) : ∀ {ws : List Written} {d : DeltaCompression κ ι}
      {css : List (List Chunk)}, SeqLog φ d.toDeltaState ws → CacheLog d.storage.cache ws →
      FilesFit ws (files.map Prod.snd) d.chunker css →
      ∃ d' uss, d.addFiles codec feature files = some d' ∧ SeqLog φ d'.toDeltaState (ws ++ uss.flatten) ∧
        CacheLog d'.storage.cache (ws ++ uss.flatten) ∧
        uss.map (List.map Written.bytes) = css.map (List.map Chunk.buf) ∧
        d'.totals = d.totals.afterFiles codec ws uss := by
  induction files with
  | nil =>
    intro ws d css h hc hfit
    obtain ⟨k, hd⟩ := hfit.drained
    obtain ⟨rfl, -⟩ := Prod.mk.inj (Option.some.inj hd)
    exact ⟨d, [], rfl, by simpa using h, by simpa using hc, rfl, rfl⟩
  | cons file files ih =>
    intro ws d css h hc hfit
    obtain ⟨name, content⟩ := file
    obtain ⟨cs, k₁, css, rfl, hcs, ha, hrest⟩ := hfit.cons
    obtain ⟨d₁, us, h₁, hs₁, hc₁, hus, hk₁, ht₁⟩ := addFile_returns codec hfits h hc hcs ha name
    obtain ⟨d₂, uss, h₂, hs₂, hc₂, huss, ht₂⟩ := ih hs₁ hc₁ (by rw [hk₁]; exact hrest us hus)
    refine ⟨d₂, us :: uss, by simp [DeltaCompression.addFiles, h₁, h₂], by simpa using hs₂,
      by simpa using hc₂, by simp [hus, huss], ?_⟩
    rw [ht₂, ht₁]
    rfl

/-- **A run of `AddFile` calls**, when there are at most `2^32` chunks in all. -/
theorem addFiles_ok (codec : Codec) {feature : Chunk → φ} (hfits : ∀ c, LawfulIndex.Fits ι (feature c))
    (files : List (String × FileContent)) (ws : List Written) (d : DeltaCompression κ ι)
    (css : List (List Chunk)) (k : κ) (h : SeqOK φ d.toDeltaState ws)
    (hid : Chunker.nextChunkId d.chunker = ws.length % 2 ^ 32)
    (hd : drainFiles (files.map Prod.snd) d.chunker = some (css, k))
    (hcount : ws.length + css.flatten.length ≤ 2 ^ 32) (hlen : ∀ c ∈ css.flatten, c.len ≤ 65535) :
    ∃ d' uss, d.addFiles codec feature files = some d' ∧ SeqOK φ d'.toDeltaState (ws ++ uss.flatten) ∧
      uss.map (List.map Written.bytes) = css.map (List.map Chunk.buf) ∧
      d'.totals = d.totals.afterFiles codec ws uss := by
  have hbytes : (logBytes ws).length + (css.flatten.map Chunk.len).sum < 2 ^ 64 := by
    have h1 := length_logBytes_le h.log.short
    have h2 := sum_len_le hlen
    omega
  obtain ⟨d', uss, hadd, hs, hc, huss, ht⟩ :=
    addFiles_returns codec hfits files h.seqLog h.log.cache ⟨⟨k, hd⟩, hid, hlen, hbytes⟩
  have hl : uss.flatten.length = css.flatten.length := by
    have := congrArg (fun l => l.flatten.length) huss
    simpa only [← List.map_flatten, List.length_map] using this
  refine ⟨d', uss, hadd, hs.seqOK hc ?_, huss, ht⟩
  rw [List.length_append, hl]
  exact hcount

/-! ## Files cut by `FastCDC` -/

omit [Chunker κ] [LawfulChunker κ] [Index ι φ] [LawfulIndex ι φ] in
/-- The chunks have all bytes of the files. -/
theorem sum_len_of_fastFileOK {min max : ℕ} {mask : UInt64} {files : List FileContent}
    {css : List (List Chunk)} (h : List.Forall₂ (FastFileOK min max mask) files css) :
    (css.flatten.map Chunk.len).sum = (files.map fun f => (f.getD []).length).sum := by
  induction files generalizing css with
  | nil => obtain rfl := List.forall₂_nil_left_iff.1 h; rfl
  | cons file files ih =>
    obtain ⟨cs, css, hcs, hrest, rfl⟩ := List.forall₂_cons_left_iff.1 h
    have hlen : (cs.map Chunk.len).sum = (file.getD []).length := by
      rw [GroupState.sum_len, hcs.bytes]
      cases file with
      | none => rfl
      | some bytes => rw [MappedFile.open_some]; rfl
    rw [List.flatten_cons, List.map_append, List.sum_append, hlen, ih hrest, List.map_cons, List.sum_cons]

omit [Chunker κ] [LawfulChunker κ] [Index ι φ] [LawfulIndex ι φ] in
/-- No chunk is longer than `max`. -/
theorem len_le_of_fastFileOK {min max : ℕ} {mask : UInt64} {files : List FileContent} {css : List (List Chunk)}
    (h : List.Forall₂ (FastFileOK min max mask) files css) : ∀ c ∈ css.flatten, c.len ≤ max := by
  induction h with
  | nil => simp
  | cons hcs _ ih =>
    intro c hc
    rw [List.flatten_cons, List.mem_append] at hc
    exact hc.elim (hcs.le_max c) (ih c)

omit [Chunker κ] [LawfulChunker κ] [Index ι φ] [LawfulIndex ι φ] in
/-- What the files are to a new store. -/
theorem filesFit_new {min max : ℕ} (hpos : 1 ≤ max) (hmm : min ≤ max) (hmax : max < 2 ^ 31 - 1) (mask : UInt64)
    {files : List FileContent} (hbytes : (files.map fun f => (f.getD []).length).sum < 2 ^ 64) :
    ∃ css k, drainFiles files (FastCDC.new min max mask) = some (css, k) ∧
      List.Forall₂ (FastFileOK min max mask) files css ∧
      ((∀ c ∈ css.flatten, c.len ≤ 65535) → FilesFit [] files (FastCDC.new min max mask) css) := by
  obtain ⟨css, k, hd, hok, -⟩ :=
    drainFiles_fast hpos hmm hmax files (.new min max mask) (FastOK.new min max mask) rfl
  refine ⟨css, k, hd, hok, fun hlen => ⟨⟨k, hd⟩, rfl, hlen, ?_⟩⟩
  rw [sum_len_of_fastFileOK hok]
  exact lt_of_eq_of_lt (Nat.zero_add _) hbytes

end ChunkGrouping
