import ChunkGrouping.Proof.PipelineStored
import ChunkGrouping.Proof.References

/-!
# What the two modes store

The sequential mode writes every chunk, the pipeline each content once. On chunks whose contents
are all different `DedupWorker` finds nothing, and what is left of the pipeline does what `AddFile`
does: the index is asked the same, and the same calls of the storage are made. Grouping the
store between two files, which only `AddFile` does, leaves it as it was.

* `SameMembers`: what the modes have in common; `SameMembers.chunk`, `SameMembers.chunks` and
  `SameMembers.files`.
* `modes_store_iff`: any schedule.
-/

namespace ChunkGrouping

open InsertMap CFile BoundedPipeline PipelineRun FirstOccurrence

variable {κ ι φ : Type} [Index ι φ] [Inhabited φ] {feature : Chunk → φ}

/-- **The modes are in step** after the contents `bs`: one index and one storage. -/
structure SameMembers (bs : List (List UInt8)) (d : DeltaState ι) (m : Members ι) : Prop where
  seen : ∀ digest id, get? digest m.dedup.mp = some id → digest ∈ bs.map Sha1.hash
  index : m.index = d.index
  storage : m.writer.storage = d.storage

variable {bs : List (List UInt8)} {d d' : DeltaState ι} {m m' : Members ι}

/-- **A chunk with a new digest.** -/
theorem SameMembers.chunk {c : Chunk} (h : SameMembers bs d m) (hnew : Sha1.hash c.buf ∉ bs.map Sha1.hash)
    {fm fm' : FileMeta} (hadd : d.addChunk feature c fm = some (fm', d')) (hp : processChunk feature m c = some m') :
    SameMembers (bs ++ [c.buf]) d' m' := by
  have hnone : get? (Sha1.hash c.buf) m.dedup.mp = none :=
    Option.eq_none_iff_forall_ne_some.2 fun id hid => hnew (h.seen _ id hid)
  rcases processChunk_cases hp with ⟨id, hget, -⟩ | ⟨-, hdedup, hcases⟩
  · rw [hnone] at hget
    cases hget
  · have hseen : ∀ digest id, get? digest m'.dedup.mp = some id → digest ∈ (bs ++ [c.buf]).map Sha1.hash := by
      intro digest id hid
      simp only [hdedup, Dedup.processChunk, hnone, get?_set] at hid
      rw [List.map_append, List.map_singleton]
      by_cases hc : Sha1.hash c.buf = digest
      · exact List.mem_append_right _ (List.mem_singleton.2 hc.symm)
      · rw [if_neg (by simpa using hc)] at hid
        exact List.mem_append_left _ (h.seen digest id hid)
    obtain ⟨-, ⟨index, ho, hindex, rfl, -⟩ | ⟨b, s, ho, hdelta, rfl, -⟩⟩ := addChunk_cases hadd
    · rcases hcases with ⟨-, hindex', hw, -⟩ | ⟨b, s, ho', -⟩
      · rw [h.index] at hindex'
        refine ⟨hseen, Option.some.inj (hindex'.symm.trans hindex), ?_⟩
        rw [hw, h.storage]
        rfl
      · rw [h.index] at ho'
        cases Option.some.inj (ho.symm.trans ho')
    · rcases hcases with ⟨ho', -⟩ | ⟨b', s', ho', hindex, hdelta', hw, -⟩
      · rw [h.index] at ho'
        cases Option.some.inj (ho.symm.trans ho')
      · rw [h.index] at ho'
        obtain rfl : b = b' := Option.some.inj (Option.some.inj (ho.symm.trans ho'))
        rw [h.storage] at hdelta'
        obtain rfl := (Prod.mk.inj (Option.some.inj (hdelta.symm.trans hdelta'))).2
        exact ⟨hseen, hindex.trans h.index, hw⟩

/-- **Chunks with new digests.** -/
theorem SameMembers.chunks (cs : List Chunk) : ∀ {bs : List (List UInt8)} {d d' : DeltaState ι} {m m' : Members ι}
    {fm fm' : FileMeta}, SameMembers bs d m → ((bs ++ cs.map Chunk.buf).map Sha1.hash).Nodup →
      addChunks feature cs fm d = some (fm', d') → processChunks feature cs m = some m' →
      SameMembers (bs ++ cs.map Chunk.buf) d' m' := by
  induction cs with
  | nil =>
    intro bs d d' m m' fm fm' h _ hadd hp
    obtain ⟨-, rfl⟩ := Prod.mk.inj (Option.some.inj hadd)
    obtain rfl := Option.some.inj hp
    rwa [List.map_nil, List.append_nil]
  | cons c cs ih =>
    intro bs d d' m m' fm fm' h hnodup hadd hp
    simp only [addChunks, Option.bind_eq_bind, Option.bind_eq_some_iff] at hadd
    obtain ⟨⟨fm₁, d₁⟩, hc, hadd⟩ := hadd
    unfold processChunks at hp
    rw [List.foldlM_cons, Option.bind_eq_bind, Option.bind_eq_some_iff] at hp
    obtain ⟨m₁, hpc, hp⟩ := hp
    rw [List.map_cons, List.append_cons] at hnodup ⊢
    have hnew : Sha1.hash c.buf ∉ bs.map Sha1.hash := by
      rw [List.map_append, List.map_append, List.append_assoc] at hnodup
      exact fun hmem => List.disjoint_of_nodup_append hnodup hmem List.mem_cons_self
    exact ih (h.chunk hnew hc hpc) hnodup hadd hp

/-- **Files.** -/
theorem SameMembers.files [LawfulIndex ι φ] [Chunker κ] [LawfulChunker κ] {codec : Codec}
    (hfits : ∀ c, LawfulIndex.Fits ι (feature c)) (files : List (String × FileContent)) :
    ∀ {ws : List Written} {bs : List (List UInt8)} {d d' : DeltaCompression κ ι} {m m' : Members ι}
      {css : List (List Chunk)},
      SeqLog φ d.toDeltaState ws → FilesFit ws (files.map Prod.snd) d.chunker css → SameMembers bs d.toDeltaState m →
      ((bs ++ css.flatten.map Chunk.buf).map Sha1.hash).Nodup → d.addFiles codec feature files = some d' →
      processChunks feature css.flatten m = some m' →
      SameMembers (bs ++ css.flatten.map Chunk.buf) d'.toDeltaState m' := by
  induction files with
  | nil =>
    intro ws bs d d' m m' css _ hfit h _ hadd hp
    obtain ⟨k, hd⟩ := hfit.drained
    obtain ⟨rfl, -⟩ := Prod.mk.inj (Option.some.inj hd)
    obtain rfl := Option.some.inj hadd
    obtain rfl := Option.some.inj hp
    rwa [List.flatten_nil, List.map_nil, List.append_nil]
  | cons file files ih =>
    intro ws bs d d' m m' css hlog hfit h hnodup hadd hp
    obtain ⟨name, content⟩ := file
    obtain ⟨cs, k₁, css, rfl, hcs, hallfit, hrest⟩ := hfit.cons
    simp only [DeltaCompression.addFiles, Option.bind_eq_bind, Option.bind_eq_some_iff] at hadd
    obtain ⟨d₁, hd₁, hadd⟩ := hadd
    obtain ⟨us, hlog₁, hus, hk₁, -⟩ := addFile_log hfits hlog hcs hallfit hd₁
    rw [List.flatten_cons] at hp
    obtain ⟨m₁, hp₁, hp⟩ := processChunks_append hp
    have hsplit : bs ++ (cs :: css).flatten.map Chunk.buf = (bs ++ cs.map Chunk.buf) ++ css.flatten.map Chunk.buf := by
      simp
    rw [hsplit] at hnodup ⊢
    refine ih hlog₁ (by rw [hk₁]; exact hrest us hus) ?_ hnodup hadd hp
    -- the chunks of the file, then the store is grouped
    obtain ⟨cs', k', fm, s, g, hcs', hadds, hg, heq, -, -⟩ := addFile_cases hd₁
    obtain ⟨rfl, -⟩ := Prod.mk.inj (Option.some.inj (hcs.symm.trans hcs'))
    obtain ⟨vs, hlogs, -⟩ := addChunks_log hfits cs hlog hallfit hadds
    obtain ⟨out, hg'⟩ := hlogs.group codec s.totals
    obtain rfl := Option.some.inj (hg.symm.trans hg')
    rw [List.map_append] at hnodup
    have hsame := SameMembers.chunks cs h (hnodup.sublist (List.sublist_append_left _ _)) hadds hp₁
    rw [heq]
    exact ⟨hsame.seen, hsame.index, hsame.storage⟩

/-- No chunk is empty. -/
theorem pos_of_fastFileOK {min max : ℕ} {mask : UInt64} {contents : List FileContent} {css : List (List Chunk)}
    (h : List.Forall₂ (FastFileOK min max mask) contents css) : ∀ c ∈ css.flatten, 0 < c.len := by
  induction h with
  | nil => simp
  | cons hcs _ ih =>
    rw [List.flatten_cons]
    exact List.forall_mem_append.2 ⟨hcs.pos, ih⟩

variable [LawfulIndex ι φ]

/-- **What the two modes store.** With `FastCDC`, either feature and index and at most `2^32` chunks that fit a record,
without a collision: when all files have been added in both modes, in the pipeline under whatever schedule, then what
the pipeline has in `data_` is a part of what the sequential mode has; both have the same there if and only if no content
comes twice, and then the whole storage is the same, with the records and the cache, and so is the index. -/
theorem modes_store_iff (p : FeatureIndex ι φ) {min max : ℕ} (hmin : 1 ≤ min) (hmm : min ≤ max)
    (hmax : max < 2 ^ 31 - 1) (mask : UInt64) (codec : Codec) (cacheSize : ℕ) (files : List (String × FileContent))
    (hbytes : (files.map fun f => (f.2.getD []).length).sum < 2 ^ 64) :
    ∃ css k, drainFiles (files.map Prod.snd) (FastCDC.new min max mask) = some (css, k) ∧
      (css.flatten.length ≤ 2 ^ 32 → (∀ c ∈ css.flatten, c.len ≤ 65535) →
        (∀ c ∈ css.flatten, ∀ c' ∈ css.flatten, Sha1.hash c.buf = Sha1.hash c'.buf → c.buf = c'.buf) →
        ∀ d schedule (r : LockedRun FastCDC ι φ),
          (DeltaCompression.new (FastCDC.new min max mask) p.index cacheSize).addFiles codec p.feature files = some d →
          LockedRun.exec p.feature schedule (.new (FastCDC.new min max mask) p.index cacheSize files) = some r →
          r.adding = false → r.files = [] →
          let m := membersOf r.pipe.loc
          m.writer.storage.dataFile.bytes.Sublist d.storage.dataFile.bytes ∧
            (m.writer.storage.dataFile.bytes = d.storage.dataFile.bytes ↔ (css.flatten.map Chunk.buf).Nodup) ∧
            ((css.flatten.map Chunk.buf).Nodup → m.writer.storage = d.storage ∧ m.index = d.index)) := by
  have hbytes' : ((files.map Prod.snd).map fun f => (f.getD []).length).sum < 2 ^ 64 := by
    rw [List.map_map]; exact hbytes
  obtain ⟨css, k, hdrain, hok, hfit⟩ := filesFit_new (hmin.trans hmm) hmm hmax mask hbytes'
  refine ⟨css, k, hdrain, fun hcount hshort hsha d schedule r hadd hr hadding hfiles => ?_⟩
  have hd := drainsFiles_of_drainFiles _ hdrain
  have hproc := LockedRun.processed rfl hd hr hadding hfiles
  have hids := (hd.ids (show Chunker.nextChunkId (FastCDC.new min max mask) = 0 from rfl)).1
  have hdata := (reports_run p cacheSize css.flatten hids hcount hsha hproc).data
  obtain ⟨uss, hlog, huss, -⟩ := addFiles_log p.fits files
    (d := .new (FastCDC.new min max mask) p.index cacheSize) (seqLog_new p cacheSize) (hfit hshort) hadd
  have hall : d.storage.dataFile.bytes = (css.flatten.map Chunk.buf).flatten := by
    rw [hlog.log.data, List.nil_append, logBytes, List.flatMap_def, List.map_flatten, huss, List.map_flatten]
  have hne : ∀ b ∈ css.flatten.map Chunk.buf, b ≠ [] := List.forall_mem_map.2 fun c hc =>
    List.ne_nil_of_length_pos (pos_of_fastFileOK hok c hc)
  have hsame : (css.flatten.map Chunk.buf).Nodup →
      (membersOf r.pipe.loc).writer.storage = d.storage ∧ (membersOf r.pipe.loc).index = d.index := by
    intro hnodup
    have hdigests : (([] ++ css.flatten.map Chunk.buf).map Sha1.hash).Nodup := by
      rw [List.nil_append]
      refine hnodup.map_on fun b hb b' hb' he => ?_
      obtain ⟨c, hc, rfl⟩ := List.mem_map.1 hb
      obtain ⟨c', hc', rfl⟩ := List.mem_map.1 hb'
      exact hsha c hc c' hc' he
    have h := SameMembers.files p.fits files (d := .new (FastCDC.new min max mask) p.index cacheSize)
      (seqLog_new p cacheSize) (hfit hshort) ⟨fun _ _ h => by simp [get?] at h, rfl, rfl⟩ hdigests hadd hproc
    exact ⟨h.storage, h.index⟩
  dsimp only
  rw [hdata, hall]
  exact ⟨(eraseDups_sublist _).flatten, flatten_eraseDups_iff hne, hsame⟩

/-- One file with two different bytes. -/
theorem modes_store_iff_two : ∃ (d : DeltaCompression FastCDC BestFitIndex) (schedule : List Actor)
    (r : LockedRun FastCDC BestFitIndex (Feature ℚ)),
    (DeltaCompression.new (FastCDC.new 1 1 0) (BestFitIndex.new (.byInsertion _) 12) 1).addFiles .fewBytes
      (OdessSubfeatures.call : Chunk → Feature ℚ) [("a", some [7, 8])] = some d ∧
    LockedRun.exec OdessSubfeatures.call schedule
      (.new (FastCDC.new 1 1 0) (BestFitIndex.new (.byInsertion _) 12) 1 [("a", some [7, 8])]) = some r ∧
    (membersOf r.pipe.loc).writer.storage = d.storage := by
  let steps (n : ℕ) : List Actor :=
    .main :: ([(0, 6 * n + 3), (1, 11 * n + 7), (2, 11 * n + 7), (3, 11 * n + 7), (4, 6 * n + 5)].flatMap
      fun x => List.replicate x.2 (.worker x.1)) ++ [.main]
  have hadd : ((DeltaCompression.new (FastCDC.new 1 1 0) (BestFitIndex.new (.byInsertion _) 12) 1).addFiles .fewBytes
      (OdessSubfeatures.call : Chunk → Feature ℚ) [("a", some [7, 8])]).isSome := by decide +kernel
  have hrun : ((LockedRun.exec (OdessSubfeatures.call : Chunk → Feature ℚ) (steps 2)
      (.new (FastCDC.new 1 1 0) (BestFitIndex.new (.byInsertion _) 12) 1 [("a", some [7, 8])])).map
        fun r => (r.adding, r.files)) = some (false, []) := by decide +kernel
  obtain ⟨d, hd⟩ := Option.isSome_iff_exists.1 hadd
  obtain ⟨r, hr, he⟩ := Option.map_eq_some_iff.1 hrun
  obtain ⟨hadding, hfiles⟩ := Prod.mk.inj he
  have hcss : (drainFiles [some [7, 8]] (FastCDC.new 1 1 0)).map Prod.fst = some [[⟨[7], 0⟩, ⟨[8], 1⟩]] := by
    decide +kernel
  obtain ⟨css, k, hdrain, h⟩ := modes_store_iff (FeatureIndex.bestfit (ρ := ℚ) (.byInsertion _)) le_rfl le_rfl
    (by decide : 1 < 2 ^ 31 - 1) 0 .fewBytes 1 [("a", some [7, 8])] (by decide)
  rw [show drainFiles [some [7, 8]] (FastCDC.new 1 1 0) = some (css, k) from hdrain] at hcss
  obtain rfl : css = [[⟨[7], 0⟩, ⟨[8], 1⟩]] := Option.some.inj hcss
  obtain ⟨-, -, hsame⟩ := h (by decide) (by decide) (by decide +kernel) d _ r hd hr hadding hfiles
  exact ⟨d, _, r, hd, hr, (hsame (by decide)).1⟩

end ChunkGrouping
