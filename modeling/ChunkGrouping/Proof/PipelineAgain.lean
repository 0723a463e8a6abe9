import ChunkGrouping.Proof.FastAppend
import ChunkGrouping.Proof.PipelineStored

/-!
# Files that were added before

How a file is cut is read off its bytes alone, so a file that comes again has the chunks it had,
and `dedup_` knows each of them.

* `drainsFiles_chop_append`: the chunks of each file; `contents_subset_of_mem` for files that come
  again.
* `MembersOK.known`: a content that is there changes `dedup_`, the index and the data file no
  more; `processChunks_known` for any number.
* `locks_again`: any schedule.
-/

namespace ChunkGrouping

open InsertMap CFile BoundedPipeline PipelineRun Cutting

/-! ## The chunks of a file -/

section Files

variable {min max : ℕ} {mask : UInt64}

/-- The chunks of a file, whatever was drained before. -/
def ChunksOf (min max : ℕ) (mask : UInt64) (content : FileContent) (cs : List Chunk) : Prop :=
  Chop (FastCut min max mask) (MappedFile.open content).mapped (cs.map Chunk.buf) []

theorem ChunksOf.unique {content : FileContent} {cs cs' : List Chunk} (h : ChunksOf min max mask content cs)
    (h' : ChunksOf min max mask content cs') : cs.map Chunk.buf = cs'.map Chunk.buf := by
  obtain ⟨ts, hts, hnil⟩ := Chop.prefix_of FastCut.functional h h'
  rw [hts, hnil.of_nil.1, List.append_nil]

theorem drainFiles_chop (hmin : 1 ≤ min) (hmm : min ≤ max) (hmax : max < 2 ^ 31 - 1) :
    ∀ (files : List FileContent) (s : FastCDC), FastOK min max mask s → s.remainingFileLen = 0 →
      ∃ css s', drainFiles files s = some (css, s') ∧ List.Forall₂ (ChunksOf min max mask) files css := by
  intro files
  induction files with
  | nil => intro s _ _; exact ⟨[], s, rfl, .nil⟩
  | cons content files ih =>
    intro s hs h0
    obtain ⟨cs, s₁, hd, hchop, -, -, hs₁, h0₁⟩ := drainFile_fast (hmin.trans hmm) hmm hmax hs h0 content
    obtain ⟨css, s₂, hds, hok⟩ := ih s₁ hs₁ h0₁
    exact ⟨cs :: css, s₂, by simp [drainFiles, hd, hds], .cons hchop hok⟩

theorem chunksOf_of_mem {files : List FileContent} {css : List (List Chunk)}
    (h : List.Forall₂ (ChunksOf min max mask) files css) : ∀ {f}, f ∈ files → ∃ cs ∈ css, ChunksOf min max mask f cs := by
  induction h with
  | nil => simp
  | cons hcs _ ih =>
    intro f hf
    rcases List.mem_cons.1 hf with rfl | hf
    · exact ⟨_, List.mem_cons_self, hcs⟩
    · obtain ⟨cs, hcs, hchop⟩ := ih hf
      exact ⟨cs, List.mem_cons_of_mem _ hcs, hchop⟩

theorem DrainsFiles.length_eq {κ : Type} [Chunker κ] {contents : List FileContent} {k k' : κ} {css : List (List Chunk)}
    (h : DrainsFiles contents k css k') : css.length = contents.length := by
  induction h with
  | nil => rfl
  | concat _ _ ih => simp [ih]

/-- **Files, then more files.** -/
theorem drainsFiles_chop_append (hmin : 1 ≤ min) (hmm : min ≤ max) (hmax : max < 2 ^ 31 - 1) (mask : UInt64)
    (as bs : List FileContent) : ∃ css₁ css₂ k k', DrainsFiles as (FastCDC.new min max mask) css₁ k ∧
      DrainsFiles bs k css₂ k' ∧ DrainsFiles (as ++ bs) (FastCDC.new min max mask) (css₁ ++ css₂) k' ∧
      List.Forall₂ (ChunksOf min max mask) as css₁ ∧ List.Forall₂ (ChunksOf min max mask) bs css₂ := by
  obtain ⟨css, k', hdrain, hchop⟩ := drainFiles_chop hmin hmm hmax (as ++ bs) (.new min max mask)
    (FastOK.new min max mask) rfl
  have hd := drainsFiles_of_drainFiles _ hdrain
  obtain ⟨css₁, css₂, k, rfl, hd₁, hd₂⟩ := hd.split
  have hlen := hd₁.length_eq
  have hchop₁ := List.forall₂_take as.length hchop
  have hchop₂ := List.forall₂_drop as.length hchop
  rw [List.take_left' rfl, List.take_left' hlen] at hchop₁
  rw [List.drop_left' rfl, List.drop_left' hlen] at hchop₂
  exact ⟨css₁, css₂, k, k', hd₁, hd₂, hd, hchop₁, hchop₂⟩

/-- **Files that come again** have no new contents. -/
theorem contents_subset_of_mem {files again : List FileContent} {css css' : List (List Chunk)}
    (h : List.Forall₂ (ChunksOf min max mask) files css) (h' : List.Forall₂ (ChunksOf min max mask) again css')
    (hmem : ∀ f ∈ again, f ∈ files) : ∀ c ∈ css'.flatten, c.buf ∈ css.flatten.map Chunk.buf := by
  induction h' with
  | nil => simp
  | @cons f cs' again css' hcs' _ ih =>
    intro c hc
    rw [List.flatten_cons, List.mem_append] at hc
    rcases hc with hc | hc
    · obtain ⟨cs, hcs, hchop⟩ := chunksOf_of_mem h (hmem f List.mem_cons_self)
      have hbuf : c.buf ∈ cs.map Chunk.buf := hchop.unique hcs' ▸ List.mem_map_of_mem hc
      obtain ⟨c₁, hc₁, he⟩ := List.mem_map.1 hbuf
      exact List.mem_map.2 ⟨c₁, List.mem_flatten.2 ⟨cs, hcs, hc₁⟩, he⟩
    · exact ih (fun f hf => hmem f (List.mem_cons_of_mem _ hf)) c hc

end Files

/-! ## Contents that are there -/

variable {ι φ : Type} [Index ι φ] [LawfulIndex ι φ] [Inhabited φ] {feature : Chunk → φ}

/-- What a duplicate leaves alone. -/
structure SameStore (m m' : Members ι) : Prop where
  dedup : m'.dedup = m.dedup
  index : m'.index = m.index
  data : m'.writer.storage.dataFile = m.writer.storage.dataFile

/-- **A content that is there** only gets a record. -/
theorem MembersOK.known_content {es : List (Chunk × ChunkMeta)} {c : Chunk} {m m' : Members ι} (h : MembersOK φ es m)
    (hid : c.id = es.length) (hmem : c.buf ∈ contents es) (hp : processChunk feature m c = some m') : SameStore m m' := by
  rcases processChunk_cases hp with ⟨id, -, -, hdedup, hindex, hw, -⟩ | ⟨hget, -⟩
  · exact ⟨hdedup, hindex, (h.writer.records.writeDuplicate hw).1⟩
  · obtain ⟨⟨c', r'⟩, he, hbuf⟩ := List.mem_map.1 hmem
    exact absurd hbuf ((h.seen.new hid hget).2 c' r' he)

theorem processChunks_known (p : FeatureIndex ι φ) (ds : List Chunk) : ∀ {es : List (Chunk × ChunkMeta)}
    {m m' : Members ι}, MembersOK φ es m → es.length + ds.length ≤ 2 ^ 32 →
      ds.map Chunk.id = idsFrom es.length ds.length → (∀ d ∈ ds, d.buf ∈ contents es) →
      (∀ d ∈ ds, ∀ b ∈ contents es, Sha1.hash b = Sha1.hash d.buf → b = d.buf) →
      processChunks p.feature ds m = some m' → SameStore m m' := by
  induction ds with
  | nil =>
    intro es m m' _ _ _ _ _ hp
    obtain rfl := Option.some.inj hp
    exact ⟨rfl, rfl, rfl⟩
  | cons d ds ih =>
    intro es m m' h hcount hids hmem hsha hp
    rw [List.length_cons] at hcount
    have hlt : es.length < 2 ^ 32 := by omega
    obtain ⟨hid, hids⟩ := List.cons.inj hids
    unfold processChunks at hp
    rw [List.foldlM_cons, Option.bind_eq_bind, Option.bind_eq_some_iff] at hp
    obtain ⟨m₁, hd, hds⟩ := hp
    have hsame := h.known_content hid (hmem d List.mem_cons_self) hd
    obtain ⟨r, hr⟩ := membersOK_step p.fits h hid hlt
      (fun e he => hsha d List.mem_cons_self _ (List.mem_map_of_mem he)) hd
    have hnext : ds.map Chunk.id = idsFrom (es ++ [(d, r)]).length ds.length := by
      rw [hids, List.length_append, List.length_singleton]
      cases ds with
      | nil => rfl
      | cons _ _ =>
        rw [List.length_cons] at hcount
        rw [nextId, Nat.mod_eq_of_lt (by omega)]
    have hthere : ∀ b ∈ contents (es ++ [(d, r)]), b ∈ contents es := by
      rw [contents_concat]
      exact List.forall_mem_append.2 ⟨fun _ hb => hb, List.forall_mem_singleton.2 (hmem d List.mem_cons_self)⟩
    have hrest := ih hr (by simp; omega) hnext
      (fun x hx => by rw [contents_concat]; exact List.mem_append_left _ (hmem x (List.mem_cons_of_mem _ hx)))
      (fun x hx b hb => hsha x (List.mem_cons_of_mem _ hx) b (hthere b hb)) hds
    exact ⟨hrest.dedup.trans hsame.dedup, hrest.index.trans hsame.index, hrest.data.trans hsame.data⟩

/-! ## Any schedule -/

/-- **Files that come again are not stored again.** With `FastCDC`, either feature and index and at most `2^32` chunks
without a collision: when all files have been added, under whatever schedule, and the content of each of `again` is
one of `files`, then `dedup_`, the index and the data file are those that adding `files` alone leaves. -/
theorem locks_again (p : FeatureIndex ι φ) {min max : ℕ} (hmin : 1 ≤ min) (hmm : min ≤ max)
    (hmax : max < 2 ^ 31 - 1) (mask : UInt64) (cacheSize : ℕ) (files again : List (String × FileContent))
    (hagain : ∀ f ∈ again, ∃ g ∈ files, g.2 = f.2) :
    ∃ css css' k k', DrainsFiles (files.map Prod.snd) (FastCDC.new min max mask) css k ∧
      DrainsFiles (again.map Prod.snd) k css' k' ∧
      (css.flatten.length + css'.flatten.length ≤ 2 ^ 32 →
        (∀ c ∈ css.flatten, ∀ c' ∈ css.flatten, Sha1.hash c.buf = Sha1.hash c'.buf → c.buf = c'.buf) →
        ∀ schedule (r : LockedRun FastCDC ι φ),
          LockedRun.exec p.feature schedule (.new (FastCDC.new min max mask) p.index cacheSize (files ++ again)) = some r →
          r.adding = false → r.files = [] →
          ∃ m, processChunks p.feature css.flatten ⟨{}, p.index, { storage := .new cacheSize }⟩ = some m ∧
            SameStore m (membersOf r.pipe.loc)) := by
  obtain ⟨css₁, css₂, k, k', hd₁, hd₂, hd, hchop₁, hchop₂⟩ := drainsFiles_chop_append hmin hmm hmax mask
    (files.map Prod.snd) (again.map Prod.snd)
  refine ⟨css₁, css₂, k, k', hd₁, hd₂, fun hcount hsha schedule r hr hadding hfiles => ?_⟩
  have hnew : ∀ d ∈ css₂.flatten, d.buf ∈ css₁.flatten.map Chunk.buf := by
    refine contents_subset_of_mem hchop₁ hchop₂ fun f hf => ?_
    obtain ⟨g, hg, rfl⟩ := List.mem_map.1 hf
    obtain ⟨g', hg', he⟩ := hagain g hg
    exact List.mem_map.2 ⟨g', hg', he⟩
  have hids := hd.ids rfl
  rw [List.flatten_append, List.map_append, List.length_append, idsFrom_add, iterate_nextId (by omega),
    Nat.zero_add] at hids
  obtain ⟨hids₁, hids₂⟩ := List.append_inj hids.1 (by rw [List.length_map, length_idsFrom])
  have hdrains : DrainsFiles ((files ++ again).map Prod.snd) (FastCDC.new min max mask) (css₁ ++ css₂) k' := by
    rw [List.map_append]
    exact hd
  have hproc := LockedRun.processed rfl hdrains hr hadding hfiles
  rw [List.flatten_append] at hproc
  obtain ⟨m, hm, hrest⟩ := processChunks_append hproc
  refine ⟨m, hm, ?_⟩
  obtain ⟨es, hes, hmembers⟩ := membersOK_run p cacheSize css₁.flatten hids₁ (by omega) hsha hm
  have hcontents : contents es = css₁.flatten.map Chunk.buf := by rw [← hes, List.map_map]; rfl
  have heslen : es.length = css₁.flatten.length := by rw [← hes, List.length_map]
  refine processChunks_known p css₂.flatten hmembers (by omega) ?_ (hcontents ▸ hnew) (fun d hd b hb hh => ?_) hrest
  · rw [heslen, hids₂]
    by_cases hnil : css₂.flatten = []
    · rw [hnil]
      rfl
    · have hpos := List.length_pos_of_ne_nil hnil
      rw [Nat.mod_eq_of_lt (by omega)]
  · rw [hcontents] at hb
    obtain ⟨c, hc, rfl⟩ := List.mem_map.1 hb
    obtain ⟨c', hc', he⟩ := List.mem_map.1 (hnew d hd)
    rw [← he] at hh ⊢
    exact hsha c hc c' hc' hh

/-- A file of two bytes under two names. -/
theorem locks_again_twice : ∃ (schedule : List Actor) (r : LockedRun FastCDC BestFitIndex (Feature ℚ))
    (m : Members BestFitIndex),
    LockedRun.exec OdessSubfeatures.call schedule
      (.new (FastCDC.new 1 1 0) (BestFitIndex.new (.byInsertion _) 12) 1 [("a", some [7, 8]), ("b", some [7, 8])]) =
        some r ∧
    processChunks (OdessSubfeatures.call : Chunk → Feature ℚ) [⟨[7], 0⟩, ⟨[8], 1⟩]
      ⟨{}, BestFitIndex.new (.byInsertion _) 12, { storage := .new 1 }⟩ = some m ∧
    (membersOf r.pipe.loc).writer.storage.dataFile.bytes = [7, 8] ∧ SameStore m (membersOf r.pipe.loc) := by
  have hrun : ((LockedRun.exec (OdessSubfeatures.call : Chunk → Feature ℚ) (LockedRun.inTurn 2 ++ LockedRun.inTurn 2)
      (.new (FastCDC.new 1 1 0) (BestFitIndex.new (.byInsertion _) 12) 1 [("a", some [7, 8]), ("b", some [7, 8])])).map
        fun r => (r.adding, r.files.length, (membersOf r.pipe.loc).writer.storage.dataFile.bytes)) =
      some (false, 0, [7, 8]) := by decide +kernel
  obtain ⟨r, hr, he⟩ := Option.map_eq_some_iff.1 hrun
  obtain ⟨hadding, he⟩ := Prod.mk.inj he
  obtain ⟨hcount, hdata⟩ := Prod.mk.inj he
  have hfiles := List.length_eq_zero_iff.1 hcount
  have hfirst : DrainsFiles [some [7, 8]] (FastCDC.new 1 1 0) [[⟨[7], 0⟩, ⟨[8], 1⟩]] _ := DrainsFiles.concat (.nil _)
    (show drainLoop 3 (Chunker.reinitWithFile (some [7, 8]) (FastCDC.new 1 1 0)).2 =
      some ([⟨[7], 0⟩, ⟨[8], 1⟩], _) from rfl)
  obtain ⟨css, css', k, k', hd, hd', h⟩ := locks_again (FeatureIndex.bestfit (ρ := ℚ) (.byInsertion _)) le_rfl le_rfl
    (by decide : 1 < 2 ^ 31 - 1) 0 1 [("a", some [7, 8])] [("b", some [7, 8])] (by simp)
  obtain ⟨rfl, rfl⟩ := hd.unique hfirst
  obtain ⟨cs, fuel, rfl, hcs⟩ := hd'.one
  obtain ⟨rfl, -⟩ := Prod.mk.inj
    (drainLoop_unique _ hcs (show drainLoop 3 _ = some ([⟨[7], 2⟩, ⟨[8], 3⟩], _) from rfl))
  obtain ⟨m, hm, hsame⟩ := h (by decide) (by decide +kernel) _ r hr hadding hfiles
  exact ⟨_, r, m, hr, hm, hdata, hsame⟩

end ChunkGrouping
