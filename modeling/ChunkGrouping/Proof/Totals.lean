import ChunkGrouping.Proof.AddFile
import ChunkGrouping.Proof.BestFitIndex

/-!
# What the totals count

Every `AddFile` groups the whole store again and adds what it finds to counters that
nobody resets. A store that was grouped before is counted again.

* `afterFiles_of_empty`: nothing was grouped before the last file.
* `all_empty_of_single`: otherwise some chunk is counted twice.
* `totals_counted_iff`: the totals count every chunk once exactly when all files before
  the last are empty.
-/

namespace ChunkGrouping

variable {ι φ : Type} {ws us : List Written} {uss : List (List Written)}

/-! ## Counters -/

/-- Grouping an empty store counts nothing. -/
theorem afterFile_nil (codec : Codec) (t : Totals) : t.afterFile codec [] [] = t := by
  have hwork : storeWork 16 [] = 0 := by
    have hgroups : (groupsOf []).toList = [] :=
      (toList_groupsOf ⟨fun k r h => by simp at h, by simp⟩).trans rfl
    simp [storeWork, hgroups]
  have hadd : t.add codec 0 = t := congrArg GroupState.totals (GroupState.add_nothing codec ⟨.new 0, t, {}⟩)
  simp [Totals.afterFile, recordsFrom, Totals.addBases, Totals.addSingles, hwork, hadd]

/-- **When only the last file writes**, the counters are those of one grouping. -/
theorem afterFiles_of_empty (codec : Codec) (t : Totals) (h : ∀ us ∈ uss.dropLast, us = []) :
    t.afterFiles codec [] uss = t.afterFile codec [] uss.flatten := by
  induction uss with
  | nil => exact (afterFile_nil codec t).symm
  | cons us uss ih =>
    cases uss with
    | nil => simp [Totals.afterFiles]
    | cons vs uss =>
      rw [List.dropLast_cons_cons] at h
      obtain rfl : us = [] := h us List.mem_cons_self
      rw [Totals.afterFiles, afterFile_nil, List.nil_append,
        ih fun us hus => h us (List.mem_cons_of_mem _ hus)]
      rfl

theorem map_bytes_recordsFrom (offset : ℕ) (ws : List Written) :
    (recordsFrom offset ws).map Record.bytes = ws.map Written.bytes := by
  induction ws generalizing offset with
  | nil => rfl
  | cons w ws ih => rw [recordsFrom, List.map_cons, ih, List.map_cons]; rfl

/-- Compressors that make one byte of everything. -/
def unitCodec : Codec := ⟨fun _ => 1, fun _ => 1, fun _ => 1⟩

theorem single_afterFile (t : Totals) (ws us : List Written) :
    (t.afterFile unitCodec ws us).singleCompressedSize =
      t.singleCompressedSize + (ws.length + us.length) := by
  simp [Totals.afterFile, Totals.addBases, Totals.addSingles, Totals.add, unitCodec, length_recordsFrom]

/-- Each file counts at least what was there before. -/
theorem le_single_afterFiles (t : Totals) (ws : List Written) (uss : List (List Written)) :
    t.singleCompressedSize + uss.length * ws.length + uss.flatten.length ≤
      (t.afterFiles unitCodec ws uss).singleCompressedSize := by
  induction uss generalizing t ws with
  | nil => simp [Totals.afterFiles]
  | cons us uss ih =>
    have h := ih (t.afterFile unitCodec ws us) (ws ++ us)
    rw [single_afterFile, List.length_append, Nat.mul_add] at h
    rw [List.length_cons, List.flatten_cons, List.length_append, Nat.add_mul, Nat.one_mul]
    exact le_trans (by omega) h

/-- **A chunk of a file that is not the last is counted twice.** -/
theorem all_empty_of_single (t : Totals) (h : (t.afterFiles unitCodec [] uss).singleCompressedSize =
    t.singleCompressedSize + uss.flatten.length) : ∀ us ∈ uss.dropLast, us = [] := by
  induction uss generalizing t with
  | nil => simp
  | cons us uss ih =>
    cases uss with
    | nil => simp
    | cons vs uss =>
      have hle := le_single_afterFiles (t.afterFile unitCodec [] us) ([] ++ us) (vs :: uss)
      rw [Totals.afterFiles] at h
      rw [h, single_afterFile, List.nil_append, List.flatten_cons (l := us), List.length_append,
        List.length_nil, List.length_cons, Nat.add_mul, Nat.one_mul] at hle
      have hus : us = [] := List.length_eq_zero_iff.1 (by omega)
      subst hus
      rw [afterFile_nil, List.nil_append, List.flatten_cons, List.nil_append] at h
      rw [List.dropLast_cons_cons]
      intro xs hxs
      rcases List.mem_cons.1 hxs with rfl | hxs
      · rfl
      · exact ih t h xs hxs

/-! ## Runs -/

/-- **The sizes of one grouping of the store.** The records `rs` of the store are those of the chunks `cs`; each of
them, base or delta, is in one buffer of the layout, once; and the totals are the sizes of these buffers. -/
structure GroupedOnce (codec : Codec) (cs : List Chunk) (d : DeltaState ι) (rs : List Record) : Prop where
  store : StoreOK d.storage rs
  wellGrouped : WellGrouped rs
  bytes : rs.map Record.bytes = cs.map Chunk.buf
  once : (layout rs).flatten.Perm (List.range cs.length)
  lz4 : d.totals.totalSizeCompressed = ((layout rs).map (lz4Size codec rs)).sum
  zstd : d.totals.zstdTotalSizeCompressed = ((layout rs).map (zstdSize codec rs)).sum

/-- **Every chunk is counted once**: the files' bytes, the single sizes of all chunks `cs`, and the
sizes of one grouping of the store, which holds these chunks. -/
structure Counted (codec : Codec) (files : List (String × FileContent)) (cs : List Chunk)
    (d : DeltaState ι) : Prop where
  origin : d.totals.totalSizeOrigin = (files.map fun f => (f.2.getD []).length).sum
  single : d.totals.singleCompressedSize = (cs.map fun c => codec.lz4Frame c.buf).sum
  zstdSingle : d.totals.zstdSingleSizeCompressed = (cs.map fun c => codec.zstd c.buf).sum
  grouping : ∃ rs, GroupedOnce codec cs d rs

/-- Every record of such a log is a base or a delta. -/
theorem DepthOne.perm_range (h : DepthOne ws) :
    (baseIds (recordsFrom 0 ws) ++ allDeltaIds (recordsFrom 0 ws)).Perm (List.range ws.length) := by
  have hdeltas : allDeltaIds (recordsFrom 0 ws) = (List.range (recordsFrom 0 ws).length).filter fun k =>
      !decide (((recordsFrom 0 ws)[k]?.map fun r => r.info.type) = some BaseChunk) := by
    refine List.filter_congr fun k hk => ?_
    rw [length_recordsFrom] at hk
    have hlt : k < ws.length := List.mem_range.1 hk
    have hw : ws[k]? = some ws[k] := List.getElem?_eq_getElem hlt
    have hr := record_log hw
    have hbd : BaseChunk ≠ DeltaChunk := by decide
    rcases h k _ hw with ⟨ht, -⟩ | ⟨ht, -⟩
    · simp [hr, recordAt, ht, hbd]
    · simp [hr, recordAt, ht, hbd.symm]
  have hall := List.filter_append_perm (fun k =>
    decide (((recordsFrom 0 ws)[k]?.map fun r => r.info.type) = some BaseChunk)) (List.range (recordsFrom 0 ws).length)
  rw [hdeltas, ← length_recordsFrom 0 ws]
  exact hall

variable [Index ι φ] [LawfulIndex ι φ]

/-- One grouping of a log on new counters. -/
theorem counted_of_afterFile {codec : Codec} {files : List (String × FileContent)} {cs : List Chunk}
    {d : DeltaState ι} (h : SeqOK φ d ws) (hbytes : ws.map Written.bytes = cs.map Chunk.buf)
    (hfiles : (cs.map Chunk.len).sum = (files.map fun f => (f.2.getD []).length).sum)
    (ht : d.totals = ({} : Totals).afterFile codec [] ws) : Counted codec files cs d := by
  have hsize : (storeWork 16 (recordsFrom 0 ws)).sizeOrigin = (ws.map Written.deltaLen).sum :=
    (sizeOrigin_storeWork h.wellGrouped).trans (sum_deltaLen 0 ws)
  have hlens : (ws.map fun w => w.bytes.length).sum = (cs.map Chunk.len).sum := by
    have := congrArg (fun l => (l.map List.length).sum) hbytes
    rwa [List.map_map, List.map_map] at this
  have hmap : ∀ f : List UInt8 → ℕ, ((recordsFrom 0 ws).map fun r => f r.bytes).sum =
      (cs.map fun c => f c.buf).sum := by
    intro f
    have := congrArg (fun l => (l.map f).sum) ((map_bytes_recordsFrom 0 ws).trans hbytes)
    rwa [List.map_map, List.map_map] at this
  refine ⟨?_, ?_, ?_, ?_⟩
  · rw [ht, ← hfiles, ← hlens, ← h.depthOne.sum_len]
    simp [Totals.afterFile, Totals.addBases, Totals.addSingles, Totals.add, hsize]
  · rw [ht]
    simp [Totals.afterFile, Totals.addBases, Totals.addSingles, Totals.add, hmap]
  · rw [ht]
    simp [Totals.afterFile, Totals.addBases, Totals.addSingles, Totals.add, hmap]
  · have hcount : ws.length = cs.length := by simpa using congrArg List.length hbytes
    obtain ⟨hlz4, hzstd⟩ := sizes_storeWork codec h.wellGrouped
    refine ⟨_, h.log.store, h.wellGrouped, (map_bytes_recordsFrom 0 ws).trans hbytes, ?_, ?_, ?_⟩
    · rw [← hcount]
      exact (flatten_layout h.wellGrouped).trans h.depthOne.perm_range
    · rw [ht, ← hlz4]
      exact Nat.zero_add _
    · rw [ht, ← hzstd]
      exact Nat.zero_add _

theorem forall_iff_of_forall₂ {α β : Type} {R : α → β → Prop} {P : α → Prop} {Q : β → Prop}
    (hR : ∀ a b, R a b → (P a ↔ Q b)) {as : List α} {bs : List β} (h : List.Forall₂ R as bs) :
    (∀ a ∈ as, P a) ↔ ∀ b ∈ bs, Q b := by
  induction h with
  | nil => simp
  | cons hab _ ih => simp only [List.forall_mem_cons, hR _ _ hab, ih]

/-- Files without bytes are those without chunks. -/
theorem fastFileOK_nil_iff {min max : ℕ} {mask : UInt64} {content : FileContent} {cs : List Chunk}
    (h : FastFileOK min max mask content cs) : content.getD [] = [] ↔ cs = [] := by
  have hmapped : content.getD [] = (MappedFile.open content).mapped := by
    cases content with
    | none => rfl
    | some bytes => rw [MappedFile.open_some]; rfl
  rw [hmapped, ← h.bytes, List.flatten_eq_nil_iff]
  constructor
  · intro hnil
    refine List.eq_nil_iff_forall_not_mem.2 fun c hc => ?_
    have hpos := h.pos c hc
    have hzero := hnil c.buf (List.mem_map_of_mem hc)
    rw [Chunk.len, hzero] at hpos
    simp at hpos
  · rintro rfl
    simp

/-- **The totals count every chunk once exactly when all files before the last are empty** or cannot
be mapped: otherwise some chunk was grouped, and its sizes counted, before. -/
theorem totals_counted_iff (p : FeatureIndex ι φ) {min max : ℕ} (hpos : 1 ≤ max) (hmm : min ≤ max)
    (hmax : max < 2 ^ 31 - 1) (mask : UInt64) {cacheSize : ℕ}
    (hc : 2 ^ 20 ≤ (ChunkCache.new cacheSize).maxMemoryUsage) (files : List (String × FileContent)) :
    ∃ css k, drainFiles (files.map Prod.snd) (FastCDC.new min max mask) = some (css, k) ∧
      ((∀ c ∈ css.flatten, c.len ≤ 65535) → css.flatten.length ≤ 2 ^ 32 →
        ((∀ codec, ∃ d, (DeltaCompression.new (FastCDC.new min max mask) p.index cacheSize).addFiles codec
              p.feature files = some d ∧ Counted codec files css.flatten d.toDeltaState) ↔
          ∀ f ∈ files.dropLast, f.2.getD [] = [])) := by
  obtain ⟨css, k, hd, hok, -⟩ :=
    drainFiles_fast hpos hmm hmax (files.map Prod.snd) (.new min max mask) (FastOK.new min max mask) rfl
  refine ⟨css, k, hd, fun hlen hcount => ?_⟩
  have hnew : SeqOK φ (DeltaCompression.new (FastCDC.new min max mask) p.index cacheSize).toDeltaState [] :=
    ⟨logOK_new hc, fun k w h => by simp at h, p.ready, fun id h => absurd h (p.empty id)⟩
  have hrun := fun codec => addFiles_ok codec p.fits files [] _ css k hnew rfl hd (by simpa using hcount) hlen
  -- a file is empty when it has no chunk, and no record is written of it
  have hfiles : (∀ f ∈ files.dropLast, f.2.getD [] = []) ↔ ∀ cs ∈ css.dropLast, cs = [] := by
    have hl := hok.length_eq
    rw [List.length_map] at hl
    have hdrop : List.Forall₂ (FastFileOK min max mask) (files.dropLast.map Prod.snd) css.dropLast := by
      rw [List.dropLast_eq_take, List.dropLast_eq_take, List.map_take, hl]
      exact List.forall₂_take _ hok
    rw [← forall_iff_of_forall₂ (fun _ _ h => fastFileOK_nil_iff h) hdrop, List.forall_mem_map]
  have hlogs : ∀ {uss : List (List Written)}, uss.map (List.map Written.bytes) = css.map (List.map Chunk.buf) →
      ((∀ cs ∈ css.dropLast, cs = []) ↔ ∀ us ∈ uss.dropLast, us = []) := by
    intro uss huss
    have hl : ((∀ l ∈ (uss.map (List.map Written.bytes)).dropLast, l = []) ↔
        ∀ l ∈ (css.map (List.map Chunk.buf)).dropLast, l = []) := by rw [huss]
    rw [← List.map_dropLast, ← List.map_dropLast] at hl
    simp only [List.forall_mem_map, List.map_eq_nil_iff] at hl
    exact hl.symm
  rw [hfiles]
  constructor
  · intro hcounted
    -- where every frame has length 1 the total is the number of chunks that were compressed
    obtain ⟨d, hd₁, hcnt⟩ := hcounted unitCodec
    obtain ⟨d', uss, hd', -, huss, ht⟩ := hrun unitCodec
    obtain rfl : d = d' := Option.some.inj (hd₁.symm.trans hd')
    have hl : uss.flatten.length = css.flatten.length := by
      have := congrArg (fun l => l.flatten.length) huss
      simpa only [← List.map_flatten, List.length_map] using this
    have hunit : ∀ cs : List Chunk, (cs.map fun c => unitCodec.lz4Frame c.buf).sum = cs.length :=
      fun cs => by simp [unitCodec]
    refine (hlogs huss).2 (all_empty_of_single {} ?_)
    have hsingle := hcnt.single
    rw [ht, hunit] at hsingle
    rw [hl]
    exact hsingle.trans (Nat.zero_add _).symm
  · intro hempty codec
    obtain ⟨d', uss, hd', hseq, huss, ht⟩ := hrun codec
    refine ⟨d', hd', counted_of_afterFile (show SeqOK φ _ uss.flatten by simpa using hseq) ?_
      ((sum_len_of_fastFileOK hok).trans (by rw [List.map_map]; rfl)) ?_⟩
    · rw [List.map_flatten, huss, ← List.map_flatten]
    · rw [ht, afterFiles_of_empty codec _ ((hlogs huss).1 hempty)]; rfl

open InsertMap in
/-- A file of two bases, one with a delta, behind one that cannot be mapped. -/
theorem totals_counted_iff_three : ∃ d,
    (DeltaCompression.new (FastCDC.new 2 2 0) (BestFitIndex.new (.byInsertion _) 12) 1).addFiles .fewBytes
        (OdessSubfeatures.call : Chunk → Feature ℚ) [("a", none), ("b", some [1, 2, 3, 4, 1, 20])] = some d ∧
      Counted .fewBytes [("a", none), ("b", some [1, 2, 3, 4, 1, 20])] [⟨[1, 2], 0⟩, ⟨[3, 4], 1⟩, ⟨[1, 20], 2⟩]
        d.toDeltaState ∧
      d.baseChunkCount = 2 ∧ d.deltaChunkCount = 1 := by
  obtain ⟨css, k, hd, hiff⟩ := totals_counted_iff (FeatureIndex.bestfit (ρ := ℚ) (.byInsertion _))
    (by decide : 1 ≤ 2) le_rfl (by decide : 2 < 2 ^ 31 - 1) 0
    (by decide : 2 ^ 20 ≤ (ChunkCache.new 1).maxMemoryUsage) [("a", none), ("b", some [1, 2, 3, 4, 1, 20])]
  have hcss : (drainFiles [none, some [1, 2, 3, 4, 1, 20]] (FastCDC.new 2 2 0)).map Prod.fst =
      some [[], [⟨[1, 2], 0⟩, ⟨[3, 4], 1⟩, ⟨[1, 20], 2⟩]] := by decide +kernel
  rw [show drainFiles [none, some [1, 2, 3, 4, 1, 20]] (FastCDC.new 2 2 0) = some (css, k) from hd] at hcss
  obtain rfl : css = [[], [⟨[1, 2], 0⟩, ⟨[3, 4], 1⟩, ⟨[1, 20], 2⟩]] := Option.some.inj hcss
  obtain ⟨d, hadd, hcounted⟩ := (hiff (by decide) (by decide)).2 (by simp) .fewBytes
  have hcounts : ((DeltaCompression.new (FastCDC.new 2 2 0) (BestFitIndex.new (.byInsertion _) 12) 1).addFiles .fewBytes
      (OdessSubfeatures.call : Chunk → Feature ℚ) [("a", none), ("b", some [1, 2, 3, 4, 1, 20])]).map
        (fun d => (d.baseChunkCount, d.deltaChunkCount)) = some (2, 1) := by decide +kernel
  rw [show (DeltaCompression.new (FastCDC.new 2 2 0) (BestFitIndex.new (.byInsertion _) 12) 1).addFiles .fewBytes
    (OdessSubfeatures.call : Chunk → Feature ℚ) [("a", none), ("b", some [1, 2, 3, 4, 1, 20])] = some d from hadd]
    at hcounts
  obtain ⟨hbase, hdelta⟩ := Prod.mk.inj (Option.some.inj hcounts)
  exact ⟨d, hadd, hcounted, hbase, hdelta⟩

open InsertMap in
/-- Two files of one byte: the first chunk's single sizes are counted with each file. -/
theorem totals_count_twice : ∃ css k d,
    drainFiles [some [1], some [2]] (FastCDC.new 1 1 0) = some (css, k) ∧
      (DeltaCompression.new (FastCDC.new 1 1 0) (BestFitIndex.new (.byInsertion _) 12) 1).addFiles
        ⟨List.length, List.length, List.length⟩ (OdessSubfeatures.call : Chunk → Feature ℚ)
        [("a", some [1]), ("b", some [2])] = some d ∧
      ¬ Counted ⟨List.length, List.length, List.length⟩ [("a", some [1]), ("b", some [2])] css.flatten
        d.toDeltaState := by
  have hcss : (drainFiles [some [1], some [2]] (FastCDC.new 1 1 0)).map Prod.fst =
      some [[⟨[1], 0⟩], [⟨[2], 1⟩]] := by decide +kernel
  have hsingle : ((DeltaCompression.new (FastCDC.new 1 1 0) (BestFitIndex.new (.byInsertion _) 12) 1).addFiles
      ⟨List.length, List.length, List.length⟩ (OdessSubfeatures.call : Chunk → Feature ℚ)
      [("a", some [1]), ("b", some [2])]).map (fun d => d.totals.singleCompressedSize) = some 3 := by
    decide +kernel
  obtain ⟨⟨css, k⟩, hd, rfl⟩ := Option.map_eq_some_iff.1 hcss
  obtain ⟨d, hd₁, h3⟩ := Option.map_eq_some_iff.1 hsingle
  refine ⟨_, k, d, hd, hd₁, fun h => ?_⟩
  have := h.single
  rw [h3] at this
  exact absurd this (by decide)

end ChunkGrouping
