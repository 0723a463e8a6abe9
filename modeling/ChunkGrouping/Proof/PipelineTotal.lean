import ChunkGrouping.Lib.PipelinePrefix
import ChunkGrouping.Proof.Completion
import ChunkGrouping.Proof.PipelineBound
import ChunkGrouping.Proof.PipelineRefs

/-!
# The pipeline adds all files

A worker crashes when its code uses what is not there. Of at most `2^32` chunks every one can be
taken through the stages, one after the other: what `dedup_` and the index answer with are records
that were written, and the bytes of a base are in `data_`. And what can be done chunk by chunk does
not fail under any schedule.

* `MembersReady.step`, `processChunks_returns`: chunk by chunk.
* `RunOK.not_fails`: any schedule, with atomic queues.
* `locks_total`: at the locks, all runs in which each notification is heard end with all files added and
  with one and the same result.
-/

namespace ChunkGrouping

open InsertMap CFile BoundedPipeline PipelineRun

variable {κ ι φ : Type} {c : Chunk} {s : Storage} {ms : List ChunkMeta}

/-! ## What a chunk needs -/

/-- The cache can keep every chunk that is read. -/
structure CacheReady (c : ChunkCache) : Prop where
  large : 2 ^ 16 ≤ c.maxMemoryUsage
  entries : ∃ es, CacheOK c es

/-- The bytes of a record are in `data_`. -/
def ChunkMeta.Inside (data : List UInt8) (m : ChunkMeta) : Prop := m.offset.toNat + m.size.toNat ≤ data.length

theorem ChunkMeta.Inside.append {data : List UInt8} {m : ChunkMeta} (h : m.Inside data) (more : List UInt8) :
    m.Inside (data ++ more) := by
  unfold ChunkMeta.Inside at h ⊢
  rw [List.length_append]
  omega

/-- Those of a record that is written are. -/
theorem inside_recordAt (data : List UInt8) (type : UInt8) (b : ℕ) (buf : List UInt8) :
    (recordAt data.length type b buf).info.Inside (data ++ buf) := by
  have hoffset : (UInt64.ofNat data.length).toNat ≤ data.length := Nat.mod_le _ _
  have hsize : (UInt16.ofNat buf.length).toNat ≤ buf.length := Nat.mod_le _ _
  show (UInt64.ofNat data.length).toNat + (UInt16.ofNat buf.length).toNat ≤ (data ++ buf).length
  rw [List.length_append]
  omega

/-- **Encoding returns** for a base whose bytes are there. -/
theorem encode_returns (h : RecordsOK s ms) (hc : CacheReady s.cache) {b : ℕ} {m : ChunkMeta} (hb : ms[b]? = some m)
    (hin : m.Inside s.dataFile.bytes) (c : Chunk) :
    ∃ cache, s.getDeltaEncodedChunk c b = some (c, { s with cache }) ∧ CacheReady cache := by
  obtain ⟨hlarge, es, hes⟩ := hc
  unfold Storage.getDeltaEncodedChunk
  by_cases hid : ∃ e ∈ es, e.id = b
  · obtain ⟨e, he, rfl⟩ := hid
    obtain ⟨xs, ys, rfl⟩ := List.append_of_mem he
    obtain ⟨c', hg, hes', hmax⟩ := get_hit hes
    exact ⟨c', by simp [hg], hmax ▸ hlarge, _, hes'⟩
  · have hne : ∀ e ∈ es, e.id ≠ b := fun e he h => hid ⟨e, he, h⟩
    obtain ⟨hg, hes'⟩ := get_miss hes hne
    have hlen : ∀ cache, (recordBytes { s with cache } m).length = m.size.toNat := by
      intro cache
      unfold recordBytes slice
      unfold ChunkMeta.Inside at hin
      dsimp only
      rw [List.length_take, List.length_drop]
      omega
    have hread := fun cache => getChunkContent_eq (h.withCache cache) hb
    have hsize : m.size.toNat < 2 ^ 16 := m.size.toNat_lt
    obtain ⟨cache, hadd, hmax, hes''⟩ := add_ok hes' hne
      (show Chunk.len ⟨recordBytes { s with cache := { s.cache with cacheMiss := s.cache.cacheMiss + 1 } } m, b⟩ <
        s.cache.maxMemoryUsage by simp only [Chunk.len, hlen]; omega)
    refine ⟨cache, ?_, hmax ▸ hlarge, _, hes''⟩
    simp only [hg, Option.bind_eq_bind, Option.bind_some, hread, hlen, if_true, hadd]

variable [Index ι φ] [LawfulIndex ι φ]

/-- **The members are ready for a chunk**: what `dedup_` and the index know are records, and the bytes of those
that the index knows are there. -/
structure MembersReady (φ : Type) [Index ι φ] [LawfulIndex ι φ] (ms : List ChunkMeta) (m : Members ι) : Prop where
  seen : ∀ digest id, get? digest m.dedup.mp = some id → id < ms.length
  ready : LawfulIndex.Ready φ m.index
  known : ∀ id, LawfulIndex.known φ m.index id →
    ∃ r, ms[id]? = some r ∧ r.Inside m.writer.storage.dataFile.bytes
  records : RecordsOK m.writer.storage ms
  cache : CacheReady m.writer.storage.cache

theorem membersReady_new (p : FeatureIndex ι φ) {cacheSize : ℕ}
    (hcache : 2 ^ 16 ≤ (ChunkCache.new cacheSize).maxMemoryUsage) :
    MembersReady φ [] (⟨{}, p.index, { storage := .new cacheSize }⟩ : Members ι) where
  seen digest id h := by simp [get?] at h
  ready := p.ready
  known id h := absurd h (p.empty id)
  records := ⟨rfl, rfl, rfl⟩
  cache := ⟨hcache, [], cacheOK_new (by show 0 < (ChunkCache.new cacheSize).maxMemoryUsage; omega)⟩

/-- What `dedup_` knows after a chunk. -/
theorem get?_processChunk {d : Dedup} {digest : List UInt8} {id n : ℕ}
    (h : ∀ digest id, get? digest d.mp = some id → id < n) (hid : c.id = n)
    (hget : get? digest (d.processChunk c).2.mp = some id) : id < n + 1 := by
  simp only [Dedup.processChunk] at hget
  split at hget
  · exact (h _ _ hget).trans (Nat.lt_succ_self n)
  · rw [get?_set] at hget
    split at hget
    · obtain rfl := Option.some.inj hget
      omega
    · exact (h _ _ hget).trans (Nat.lt_succ_self n)

theorem known_snoc {P Q : ChunkMeta → Prop} (hPQ : ∀ r, P r → Q r) {id : ℕ} (h : ∃ r, ms[id]? = some r ∧ P r)
    (r : ChunkMeta) : ∃ r', (ms ++ [r])[id]? = some r' ∧ Q r' := by
  obtain ⟨r', hr', hP⟩ := h
  exact ⟨r', getElem?_concat.2 (.inl hr'), hPQ r' hP⟩

variable [Inhabited φ] {feature : Chunk → φ}

/-- **A chunk gets through**, and leaves the members ready. -/
theorem MembersReady.step (hfits : ∀ c, LawfulIndex.Fits ι (feature c)) {m : Members ι} (h : MembersReady φ ms m)
    (hid : c.id = ms.length) : ∃ m' r, processChunk feature m c = some m' ∧ MembersReady φ (ms ++ [r]) m' := by
  have hlen : ∀ r : ChunkMeta, (ms ++ [r]).length = ms.length + 1 := fun r => by simp
  obtain ⟨o, ho, hknown⟩ := LawfulIndex.get_ok h.ready (hfits c)
  obtain ⟨index, hadd, hready, hknown', -⟩ := LawfulIndex.add_ok c.id h.ready (hfits c)
  obtain ⟨m', hm'⟩ := exists_processChunk ho ⟨index, hadd⟩
    (fun id hget _ => by
      have hlt : id / 16 % 2 < ms.length := and_sizeof_lt (h.seen _ _ hget)
      obtain ⟨s, hs, -⟩ := writeDuplicate_ok h.records (List.getElem?_eq_getElem hlt) c
      exact ⟨s, hs⟩)
    (fun b hb => by
      obtain ⟨r, hr, hin⟩ := h.known b (hknown b hb)
      obtain ⟨cache, he, -⟩ := encode_returns h.records h.cache hr hin c
      exact ⟨_, he⟩)
  rcases processChunk_cases hm' with ⟨id, -, -, hd, hi, hw, -⟩ |
    ⟨-, hd, ⟨-, hadd', hw, -⟩ | ⟨b, s, hb, hi, he, hw, -⟩⟩
  · -- a duplicate: the data stays as it is
    obtain ⟨hdata, offset, hrec⟩ := h.records.writeDuplicate hw
    refine ⟨m', _, hm', fun digest id' hget => ?_, hi ▸ h.ready, fun id' hk => ?_, hrec,
      (writeDuplicate_cache hw).symm ▸ h.cache⟩
    · rw [hd] at hget
      exact hlen _ ▸ (h.seen _ _ hget).trans (Nat.lt_succ_self _)
    · rw [hi] at hk
      exact known_snoc (fun r hr => by rw [hdata]; exact hr) (h.known id' hk) _
  · -- a base: the index knows it, and its bytes are there
    obtain rfl := Option.some.inj (hadd.symm.trans hadd')
    obtain ⟨hrec, hdata⟩ := h.records.writeChunk BaseChunk c.id c
    change m'.writer.storage = Storage.writeChunk BaseChunk c.id c m.writer.storage at hw
    rw [← hw] at hrec hdata
    refine ⟨m', _, hm', fun digest id' hget => ?_, hready, fun id' hk => ?_, hrec, ?_⟩
    · rw [hd] at hget
      exact hlen _ ▸ get?_processChunk h.seen hid hget
    · rw [hdata]
      rcases hknown' id' hk with hk | rfl
      · exact known_snoc (fun r hr => hr.append _) (h.known id' hk) _
      · exact ⟨_, getElem?_concat.2 (.inr ⟨hid, rfl⟩), inside_recordAt _ _ _ _⟩
    · rw [hw]
      exact h.cache
  · -- a delta: its base was read, or was in the cache
    obtain ⟨r, hr, hin⟩ := h.known b (hknown b (Option.some.inj (ho.symm.trans hb)))
    obtain ⟨cache, he', hcache⟩ := encode_returns h.records h.cache hr hin c
    obtain ⟨-, rfl⟩ := Prod.mk.inj (Option.some.inj (he.symm.trans he'))
    obtain ⟨hrec, hdata⟩ := (h.records.withCache cache).writeChunk DeltaChunk b c
    change m'.writer.storage = Storage.writeChunk DeltaChunk b c { m.writer.storage with cache } at hw
    rw [← hw] at hrec hdata
    refine ⟨m', _, hm', fun digest id' hget => ?_, hi ▸ h.ready, fun id' hk => ?_, hrec, ?_⟩
    · rw [hd] at hget
      exact hlen _ ▸ get?_processChunk h.seen hid hget
    · rw [hi] at hk
      rw [hdata]
      exact known_snoc (fun r hr => hr.append _) (h.known id' hk) _
    · rw [hw]
      exact hcache

/-- **All chunks get through**, as long as their ids do not wrap. -/
theorem processChunks_returns (p : FeatureIndex ι φ) {cacheSize : ℕ}
    (hcache : 2 ^ 16 ≤ (ChunkCache.new cacheSize).maxMemoryUsage) (cs : List Chunk)
    (hids : cs.map Chunk.id = idsFrom 0 cs.length) (hcount : cs.length ≤ 2 ^ 32) :
    ∃ m, processChunks p.feature cs ⟨{}, p.index, { storage := .new cacheSize }⟩ = some m := by
  have hpos : ∀ (k : ℕ) (c : Chunk), cs[k]? = some c → c.id = k := by
    intro k c hk
    have hlt := (List.getElem?_eq_some_iff.1 hk).1
    rw [getElem?_id (by omega) hids hk, Nat.zero_add, Nat.mod_eq_of_lt (by omega)]
  suffices h : ∃ m ms, processChunks p.feature cs ⟨{}, p.index, { storage := .new cacheSize }⟩ = some m ∧
      ms.length = cs.length ∧ MembersReady φ ms m from ⟨h.choose, h.choose_spec.choose_spec.1⟩
  clear hids hcount
  unfold processChunks
  induction cs using List.reverseRecOn with
  | nil => exact ⟨_, [], rfl, rfl, membersReady_new p hcache⟩
  | append_singleton cs c ih =>
    obtain ⟨m, ms, hm, hlen, hready⟩ := ih fun k x hk => hpos k x (getElem?_concat.2 (.inl hk))
    obtain ⟨m', r, hm', hready'⟩ := hready.step p.fits
      ((hpos _ c (getElem?_concat.2 (.inr ⟨rfl, rfl⟩))).trans hlen.symm)
    refine ⟨m', ms ++ [r], ?_, by simp [hlen], hready'⟩
    rw [List.foldlM_append, hm]
    show (processChunk p.feature m c >>= some) = some m'
    rw [hm']
    rfl

/-! ## Any schedule -/

omit [Index ι φ] [LawfulIndex ι φ] [Inhabited φ] in
/-- The first file, then the others. -/
theorem DrainsFiles.cons [Chunker κ] {content : FileContent} {contents : List FileContent} {k k₁ k₂ : κ}
    {cs : List Chunk} {css : List (List Chunk)} {fuel : ℕ}
    (hd : drainLoop fuel (Chunker.reinitWithFile content k).2 = some (cs, k₁)) (h : DrainsFiles contents k₁ css k₂) :
    DrainsFiles (content :: contents) k (cs :: css) k₂ := by
  induction h with
  | nil => exact (DrainsFiles.nil k).concat hd
  | concat _ hd' ih => exact .concat (ih hd) hd'

omit [Index ι φ] [LawfulIndex ι φ] [Inhabited φ] in
theorem drainsFiles_of_drainFiles [Chunker κ] (contents : List FileContent) : ∀ {k k' : κ} {css : List (List Chunk)},
    drainFiles contents k = some (css, k') → DrainsFiles contents k css k' := by
  induction contents with
  | nil =>
    intro k k' css h
    obtain ⟨rfl, rfl⟩ := Prod.mk.inj (Option.some.inj h)
    exact .nil k
  | cons content contents ih =>
    intro k k' css h
    simp only [drainFiles, Option.bind_eq_bind, Option.bind_eq_some_iff, Option.some.injEq, Prod.mk.injEq] at h
    obtain ⟨⟨cs, k₁⟩, hd, ⟨css', k₂⟩, hds, rfl, rfl⟩ := h
    exact .cons hd (ih hds)

omit [Index ι φ] [LawfulIndex ι φ] [Inhabited φ] in
/-- Some files first. -/
theorem DrainsFiles.split [Chunker κ] {as bs : List FileContent} {k k₂ : κ} {css : List (List Chunk)}
    (h : DrainsFiles (as ++ bs) k css k₂) :
    ∃ css₁ css₂ k₁, css = css₁ ++ css₂ ∧ DrainsFiles as k css₁ k₁ ∧ DrainsFiles bs k₁ css₂ k₂ := by
  induction bs using List.reverseRecOn generalizing css k₂ with
  | nil => exact ⟨css, [], k₂, by simp, by simpa using h, .nil k₂⟩
  | append_singleton bs b ih =>
    rw [← List.append_assoc] at h
    generalize hall : as ++ bs ++ [b] = contents at h
    cases h with
    | nil => simp at hall
    | concat h hd =>
      obtain ⟨rfl, hlast⟩ := List.append_inj' hall rfl
      obtain rfl := (List.cons.inj hlast).1
      obtain ⟨css₁, css₂, k₁, rfl, h₁, h₂⟩ := ih h
      exact ⟨css₁, _, k₁, by rw [List.append_assoc], h₁, h₂.concat hd⟩

omit [Index ι φ] [LawfulIndex ι φ] [Inhabited φ] in
/-- One file. -/
theorem DrainsFiles.one [Chunker κ] {b : FileContent} {k k₂ : κ} {css : List (List Chunk)}
    (h : DrainsFiles [b] k css k₂) :
    ∃ cs fuel, css = [cs] ∧ drainLoop fuel (Chunker.reinitWithFile b k).2 = some (cs, k₂) := by
  generalize hall : [b] = contents at h
  cases h with
  | nil => cases hall
  | @concat contents content _ k₁ _ css' cs fuel h hd =>
    have hsplit : [] ++ [b] = contents ++ [content] := hall
    obtain ⟨rfl, hlast⟩ := List.append_inj' hsplit rfl
    obtain rfl := (List.cons.inj hlast).1
    obtain ⟨rfl, rfl⟩ := h.unique (.nil k)
    exact ⟨cs, fuel, rfl, hd⟩

omit [LawfulIndex ι φ] in
theorem processChunks_append {cs ds : List Chunk} {m m' : Members ι}
    (h : processChunks feature (cs ++ ds) m = some m') :
    ∃ m₁, processChunks feature cs m = some m₁ ∧ processChunks feature ds m₁ = some m' := by
  unfold processChunks at h ⊢
  rw [List.foldlM_append, Option.bind_eq_bind, Option.bind_eq_some_iff] at h
  exact h

variable [Chunker κ]

omit [LawfulIndex ι φ] in
/-- **No worker fails**, when all files can be drained and their chunks taken through the stages. -/
theorem RunOK.not_fails {k₀ k : κ} {m₀ m : Members ι} {files : List (String × FileContent)} {css : List (List Chunk)}
    {r : PipelineRun κ ι φ} (h : RunOK feature k₀ m₀ files r) (hd : DrainsFiles (files.map Prod.snd) k₀ css k)
    (hp : processChunks feature css.flatten m₀ = some m) (w : ℕ) : ¬ Fails (workers feature) w r.pipe := by
  cases h with
  | idle hcur hfiles hadded hall hq =>
    rintro (⟨-, hphase, -⟩ | ⟨a, hphase, -⟩)
    · rw [hall 0] at hphase
      cases hphase
    · rw [hall w] at hphase
      cases hphase
  | @adding done css₀ k₁ name content l ins outs hfiles hadded hl hcur hi =>
    -- the file being added, behind those that were
    have hmap : files.map Prod.snd = done.map Prod.snd ++ ([content] ++ r.files.map Prod.snd) := by
      rw [hfiles]
      simp
    rw [hmap] at hd
    obtain ⟨css₁, css₂, k₂, rfl, hd₁, hd₂⟩ := hd.split
    obtain ⟨rfl, rfl⟩ := hadded.drained.unique hd₁
    obtain ⟨css₃, css₄, k₃, rfl, hd₃, -⟩ := hd₂.split
    obtain ⟨cs, fuel, rfl, hdrain⟩ := hd₃.one
    rw [List.flatten_append, List.flatten_append, List.flatten_singleton] at hp
    obtain ⟨m₁, hm₁, hp⟩ := processChunks_append hp
    obtain rfl := Option.some.inj (hadded.processed.symm.trans hm₁)
    obtain ⟨m₂, hm₂, -⟩ := processChunks_append hp
    obtain ⟨l', hpass, -⟩ := workers_passAll feature cs hm₂
    obtain ⟨made, hs⟩ := succeeds_of_passAll (P := workers feature) (hl ▸ workers_drain feature fuel hdrain) hpass
    rintro (⟨-, hphase, hnone⟩ | ⟨a, hphase, hnone⟩)
    · obtain ⟨x, hx⟩ := hi.produces hs hphase
      rw [hx] at hnone
      cases hnone
    · obtain ⟨x, hx⟩ := hi.works hs hphase
      rw [hx] at hnone
      cases hnone

namespace LockedRun

variable [LawfulChunker κ] {ok : κ → Prop} {k₀ k : κ} {index : ι} {cacheSize : ℕ}
  {files : List (String × FileContent)} {css : List (List Chunk)} {m : Members ι} {r : LockedRun κ ι φ}

omit [LawfulIndex ι φ] in
/-- **No worker crashes** under any schedule, heard or not. -/
theorem not_crashed (hk₀ : Chunker.nextChunkId k₀ = 0) (hd : DrainsFiles (files.map Prod.snd) k₀ css k)
    (hp : processChunks feature css.flatten ⟨{}, index, { storage := .new cacheSize }⟩ = some m)
    {schedule : List Actor} (hr : LockedRun.exec feature schedule (.new k₀ index cacheSize files) = some r) (w : ℕ) :
    r.pipe.pc w ≠ .crashed := by
  obtain ⟨schedule', q, -, hexec, h⟩ := exec_implements feature k₀ index cacheSize files schedule hr
  have hok := exec_ok rfl schedule' (ChunkGrouping.runOK_new feature hk₀ index cacheSize files) hexec
  exact fun hw => hok.not_fails hd hp w (h.abstracts.crashed w hw)

omit [LawfulIndex ι φ] in
/-- **A run that added all files**, with atomic queues. -/
theorem added_queues {q : PipelineRun κ ι φ} (hk₀ : Chunker.nextChunkId k₀ = 0) {schedule : List Actor}
    (hq : PipelineRun.exec feature schedule (.new k₀ index cacheSize files) = some q) (hcurrent : q.current = none)
    (hfiles : q.files = []) : ∃ css metas, Added feature k₀ ⟨{}, index, { storage := .new cacheSize }⟩ files css
      (q.pipe.loc 0) (membersOf q.pipe.loc) metas := by
  have hok := exec_ok rfl schedule (ChunkGrouping.runOK_new feature hk₀ index cacheSize files) hq
  cases hok with
  | @idle done css hcur hdone hadded hall hempty =>
    rw [hfiles, List.append_nil] at hdone
    subst hdone
    exact ⟨css, _, hadded⟩
  | adding hdone hadded hl hcur hi =>
    rw [hcurrent] at hcur
    cases hcur

omit [LawfulIndex ι φ] in
/-- At the locks. -/
theorem added (hk₀ : Chunker.nextChunkId k₀ = 0) {schedule : List Actor}
    (hr : LockedRun.exec feature schedule (.new k₀ index cacheSize files) = some r) (hadding : r.adding = false)
    (hfiles : r.files = []) : ∃ css metas, Added feature k₀ ⟨{}, index, { storage := .new cacheSize }⟩ files css
      (r.pipe.loc 0) (membersOf r.pipe.loc) metas := by
  obtain ⟨schedule', q, -, hexec, h⟩ := exec_implements feature k₀ index cacheSize files schedule hr
  have hcurrent : q.current = none := by
    rw [← Option.isNone_iff_eq_none, ← Option.isSome_eq_false_iff, ← h.adding, hadding]
  rw [← h.abstracts.loc]
  exact added_queues hk₀ hexec hcurrent (h.files.trans hfiles)

omit [LawfulIndex ι φ] in
/-- **The result of a run that added all files.** -/
theorem result (hk₀ : Chunker.nextChunkId k₀ = 0) (hd : DrainsFiles (files.map Prod.snd) k₀ css k)
    (hp : processChunks feature css.flatten ⟨{}, index, { storage := .new cacheSize }⟩ = some m)
    {schedule : List Actor} (hr : LockedRun.exec feature schedule (.new k₀ index cacheSize files) = some r)
    (hadding : r.adding = false) (hfiles : r.files = []) : (r.pipe.loc 0 : κ) = k ∧ membersOf r.pipe.loc = m := by
  obtain ⟨css', metas, hadded⟩ := added hk₀ hr hadding hfiles
  obtain ⟨rfl, hk⟩ := hadded.drained.unique hd
  exact ⟨hk, Option.some.inj (hadded.processed.symm.trans hp)⟩

end LockedRun

/-- **The pipeline adds all files.** With `FastCDC`, either feature and index, a cache of a chunk at least and at
most `2^32` chunks, no worker ever crashes and no run is longer than a bound, whatever the schedule. A run in
which each notification is heard and after which nobody can step has added all files, and its result is the one of
taking chunk after chunk through the stages. -/
theorem locks_total (p : FeatureIndex ι φ) {min max : ℕ} (hmin : 1 ≤ min) (hmm : min ≤ max)
    (hmax : max < 2 ^ 31 - 1) (mask : UInt64) {cacheSize : ℕ} (hcache : 2 ^ 16 ≤ (ChunkCache.new cacheSize).maxMemoryUsage)
    (files : List (String × FileContent)) :
    ∃ css k, DrainsFiles (files.map Prod.snd) (FastCDC.new min max mask) css k ∧
      (css.flatten.length ≤ 2 ^ 32 → ∃ m bound,
        processChunks p.feature css.flatten ⟨{}, p.index, { storage := .new cacheSize }⟩ = some m ∧
        (∀ schedule r,
          LockedRun.exec p.feature schedule (.new (FastCDC.new min max mask) p.index cacheSize files) = some r →
          schedule.length ≤ bound ∧ ∀ w, r.pipe.pc w ≠ .crashed) ∧
        ∀ r, LockedRun.Runs p.feature LockedRun.NotifyHeard
            (.new (FastCDC.new min max mask) p.index cacheSize files) r →
          (∀ a, LockedRun.step p.feature a r = none) →
          r.adding = false ∧ r.files = [] ∧ r.pipe.loc 0 = k ∧ membersOf r.pipe.loc = m) := by
  obtain ⟨css, k, hdrain, -, hids⟩ := drainFiles_fast (hmin.trans hmm) hmm hmax (files.map Prod.snd) (.new min max mask)
    (FastOK.new min max mask) rfl
  have hd := drainsFiles_of_drainFiles _ hdrain
  refine ⟨css, k, hd, fun hcount => ?_⟩
  obtain ⟨m, hm⟩ := processChunks_returns p hcache css.flatten hids hcount
  refine ⟨m, _, hm, fun schedule r hr =>
      ⟨LockedRun.length_le_cost fastCDC_shortens (k := FastCDC.new min max mask) hmin p.feature p.index cacheSize
        files hr, LockedRun.not_crashed rfl hd hm hr⟩,
    fun r hr hstuck => ?_⟩
  obtain ⟨schedule, hexec⟩ := LockedRun.exec_of_runs hr
  have hok := LockedRun.runOK_of_runs hr (LockedRun.runOK_new p.feature (FastCDC.new min max mask) p.index cacheSize files)
  rcases hok.ended hstuck with ⟨w, -, hw⟩ | ⟨hadding, hfiles⟩
  · exact absurd hw (LockedRun.not_crashed rfl hd hm hexec w)
  · obtain ⟨hk, hmem⟩ := LockedRun.result rfl hd hm hexec hadding hfiles
    exact ⟨hadding, hfiles, hk, hmem⟩

/-- A base, a delta and a duplicate. -/
theorem drainsFiles_three : ∃ k, DrainsFiles [some [7, 8, 8]] (FastCDC.new 1 1 0) [[⟨[7], 0⟩, ⟨[8], 1⟩, ⟨[8], 2⟩]] k := by
  have hdrain : (drainLoop 4 (Chunker.reinitWithFile (some [7, 8, 8]) (FastCDC.new 1 1 0)).2).map Prod.fst =
      some [⟨[7], 0⟩, ⟨[8], 1⟩, ⟨[8], 2⟩] := by decide +kernel
  obtain ⟨⟨cs, k⟩, hd, rfl⟩ := Option.map_eq_some_iff.1 hdrain
  exact ⟨k, DrainsFiles.concat (.nil _) hd⟩

open LockedRun in
/-- From where two of the three chunks are written and the third waits for worker 3, a run that is heard goes on to the
result. -/
theorem locks_total_three : ∃ (r r' : LockedRun FastCDC BestFitIndex (Feature ℚ)) (m : Members BestFitIndex),
    Runs OdessSubfeatures.call NotifyHeard
      (.new (FastCDC.new 1 1 0) (BestFitIndex.new (.byInsertion _) 12) 1 [("a", some [7, 8, 8])]) r ∧
    (r.pipe.loc 4 : Writer).processedChunk = 2 ∧ (r.pipe.queue 2).length = 1 ∧
    Runs OdessSubfeatures.call NotifyHeard r r' ∧ (∀ a, LockedRun.step OdessSubfeatures.call a r' = none) ∧
    r'.adding = false ∧ r'.files = [] ∧
    processChunks (OdessSubfeatures.call : Chunk → Feature ℚ) [⟨[7], 0⟩, ⟨[8], 1⟩, ⟨[8], 2⟩]
      ⟨{}, BestFitIndex.new (.byInsertion _) 12, { storage := .new 1 }⟩ = some m ∧
    membersOf r'.pipe.loc = m := by
  have hrun : (execHeard (OdessSubfeatures.call : Chunk → Feature ℚ) (LockedRun.interleaved.take 160)
      (.new (FastCDC.new 1 1 0) (BestFitIndex.new (.byInsertion _) 12) 1 [("a", some [7, 8, 8])])).map
        (fun r => ((r.pipe.loc 4 : Writer).processedChunk, (r.pipe.queue 2).length)) = some (2, 1) := by decide +kernel
  obtain ⟨r, hr, he⟩ := Option.map_eq_some_iff.1 hrun
  obtain ⟨hprocessed, hqueue⟩ := Prod.mk.inj he
  have hheard := runs_of_execHeard hr
  -- what is left of the run
  obtain ⟨schedule, hexec⟩ := exec_of_runs hheard
  have hgoing : Going (OdessSubfeatures.call : Chunk → Feature ℚ) (fun s : FastCDC => 1 ≤ s.minChunkSize)
      (.new (FastCDC.new 1 1 0) (BestFitIndex.new (.byInsertion _) 12) 1 [("a", some [7, 8, 8])]) := by
    apply going_new
    exact le_rfl
  obtain ⟨r', hruns, hstuck⟩ := (hgoing.exec fastCDC_shortens hexec).ends fastCDC_shortens
  obtain ⟨css, k, hd, h⟩ := locks_total (FeatureIndex.bestfit (ρ := ℚ) (.byInsertion _)) le_rfl le_rfl
    (by decide : 1 < 2 ^ 31 - 1) 0 (show 2 ^ 16 ≤ (ChunkCache.new 1).maxMemoryUsage by decide)
    [("a", some [7, 8, 8])]
  obtain ⟨k', hdrain⟩ := drainsFiles_three
  obtain ⟨rfl, -⟩ := hd.unique hdrain
  obtain ⟨m, -, hm, -, hend⟩ := h (by decide)
  obtain ⟨hadding, hfiles, -, hmembers⟩ := hend r' (hheard.trans hruns) hstuck
  exact ⟨r, r', m, hheard, hprocessed, hqueue, hruns, hstuck, hadding, hfiles, hm, hmembers⟩

end ChunkGrouping
