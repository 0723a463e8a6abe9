import ChunkGrouping.Proof.FastResync
import ChunkGrouping.Proof.PipelineAgain
import ChunkGrouping.Proof.Restore

/-!
# Files that were changed

A file that is added after another version of it has its chunks from where both are cut at one
place of what they have in common. Only the bytes before that place can be new.

* `stored_of_common`: the contents of files, then of one that ends with known ones.
* `locks_edit`: any schedule.
-/

namespace ChunkGrouping

open InsertMap CFile BoundedPipeline PipelineRun Cutting FirstOccurrence

variable {ι φ : Type} [Index ι φ] [LawfulIndex ι φ] [Inhabited φ]

/-- **What one more file adds to `data_`**, when its last chunks are known. -/
theorem stored_of_common (p : FeatureIndex ι φ) (cacheSize : ℕ) {cs ds : List Chunk} {qs ts : List (List UInt8)}
    (hids : (cs ++ ds).map Chunk.id = idsFrom 0 (cs ++ ds).length) (hcount : (cs ++ ds).length ≤ 2 ^ 32)
    (hsha : ∀ c ∈ cs ++ ds, ∀ c' ∈ cs ++ ds, Sha1.hash c.buf = Sha1.hash c'.buf → c.buf = c'.buf)
    (hds : ds.map Chunk.buf = qs ++ ts) (hts : ∀ t ∈ ts, t ∈ cs.map Chunk.buf) {m m' : Members ι}
    (hm : processChunks p.feature cs ⟨{}, p.index, { storage := .new cacheSize }⟩ = some m)
    (hm' : processChunks p.feature (cs ++ ds) ⟨{}, p.index, { storage := .new cacheSize }⟩ = some m') :
    ∃ more, m'.writer.storage.dataFile.bytes = m.writer.storage.dataFile.bytes ++ more ∧
      more.length ≤ qs.flatten.length := by
  have hids₁ : cs.map Chunk.id = idsFrom 0 cs.length := by
    rw [List.map_append, List.length_append, idsFrom_add] at hids
    exact (List.append_inj hids (by rw [List.length_map, length_idsFrom])).1
  have hdata := (reports_run p cacheSize cs hids₁ (by rw [List.length_append] at hcount; omega)
    (fun c hc c' hc' => hsha c (List.mem_append_left _ hc) c' (List.mem_append_left _ hc')) hm).data
  have hdata' := (reports_run p cacheSize (cs ++ ds) hids hcount hsha hm').data
  obtain ⟨more, hmore, hsub⟩ := eraseDups_append_known qs hts
  rw [List.map_append, hds, hmore, List.flatten_append, ← hdata] at hdata'
  exact ⟨more.flatten, hdata', hsub.flatten.length_le⟩

/-- **A changed file costs what comes before a common cut.** With `FastCDC`, either feature and index and at most `2^32`
chunks without a collision: when all files have been added, under whatever schedule, the last of them another version of
one before, and both are cut after `n` bytes of the common rest `w`, then `data_` is what the other files alone leave,
and behind it at most as many bytes as the last file has up to this cut. -/
theorem locks_edit (p : FeatureIndex ι φ) {min max : ℕ} (hmin : 1 ≤ min) (hmm : min ≤ max)
    (hmax : max < 2 ^ 31 - 1) (mask : UInt64) (cacheSize : ℕ) (files : List (String × FileContent)) (name : String)
    {u v w : List UInt8} (hold : ∃ f ∈ files, f.2 = some (u ++ w)) :
    ∃ css cs k k', DrainsFiles (files.map Prod.snd) (FastCDC.new min max mask) css k ∧
      DrainsFiles [some (v ++ w)] k [cs] k' ∧
      ((css.flatten ++ cs).length ≤ 2 ^ 32 →
        (∀ c ∈ css.flatten ++ cs, ∀ c' ∈ css.flatten ++ cs, Sha1.hash c.buf = Sha1.hash c'.buf → c.buf = c'.buf) →
        ∀ n, CutAt (FastCut min max mask) (u ++ w) (u.length + n) → CutAt (FastCut min max mask) (v ++ w) (v.length + n) →
        ∀ schedule (r : LockedRun FastCDC ι φ),
          LockedRun.exec p.feature schedule
            (.new (FastCDC.new min max mask) p.index cacheSize (files ++ [(name, some (v ++ w))])) = some r →
          r.adding = false → r.files = [] →
          ∃ m more, processChunks p.feature css.flatten ⟨{}, p.index, { storage := .new cacheSize }⟩ = some m ∧
            (membersOf r.pipe.loc).writer.storage.dataFile.bytes = m.writer.storage.dataFile.bytes ++ more ∧
            more.length ≤ v.length + n) := by
  obtain ⟨css, css', k, k', hd, hd', hall, hchop, hchop'⟩ := drainsFiles_chop_append hmin hmm hmax mask
    (files.map Prod.snd) [some (v ++ w)]
  obtain ⟨cs, fuel, rfl, -⟩ := hd'.one
  refine ⟨css, cs, k, k', hd, hd', fun hcount hsha n hx hy schedule r hr hadding hfiles => ?_⟩
  have hids := (hall.ids rfl).1
  have hproc := LockedRun.processed rfl (by rw [List.map_append]; exact hall) hr hadding hfiles
  rw [List.flatten_concat] at hids hproc
  obtain ⟨m, hm, -⟩ := processChunks_append hproc
  -- the chunks of the two versions
  obtain ⟨f, hf, hcontent⟩ := hold
  obtain ⟨cx, hcx, hchopx⟩ := chunksOf_of_mem hchop (List.mem_map_of_mem (f := Prod.snd) hf)
  have hchopy := (List.forall₂_cons.1 hchop').1
  unfold ChunksOf at hchopx hchopy
  rw [hcontent, mapped_open] at hchopx
  rw [mapped_open] at hchopy
  obtain ⟨qx, qy, ts, hqx, hqy, -, hflat⟩ := hx.agree FastCut.functional hy hchopx final_nil hchopy final_nil
  have hts : ∀ t ∈ ts, t ∈ css.flatten.map Chunk.buf := by
    intro t ht
    have hmem : t ∈ cx.map Chunk.buf := by rw [hqx]; exact List.mem_append_right _ ht
    obtain ⟨c, hc, he⟩ := List.mem_map.1 hmem
    exact List.mem_map.2 ⟨c, List.mem_flatten.2 ⟨cx, hcx, hc⟩, he⟩
  obtain ⟨more, hmore, hle⟩ := stored_of_common p cacheSize hids hcount hsha hqy hts hm hproc
  refine ⟨m, more, hm, hmore, hle.trans ?_⟩
  rw [hflat, List.length_append, List.length_take]
  omega

/-- One byte, and then another before it. -/
theorem locks_edit_two : ∃ (schedule : List Actor) (r : LockedRun FastCDC BestFitIndex (Feature ℚ))
    (m : Members BestFitIndex) (more : List UInt8),
    LockedRun.exec OdessSubfeatures.call schedule
      (.new (FastCDC.new 1 1 0) (BestFitIndex.new (.byInsertion _) 12) 1 [("a", some [7]), ("b", some [8, 7])]) = some r ∧
    processChunks (OdessSubfeatures.call : Chunk → Feature ℚ) [⟨[7], 0⟩]
      ⟨{}, BestFitIndex.new (.byInsertion _) 12, { storage := .new 1 }⟩ = some m ∧
    (membersOf r.pipe.loc).writer.storage.dataFile.bytes = m.writer.storage.dataFile.bytes ++ more ∧ more.length ≤ 1 := by
  have hrun : ((LockedRun.exec (OdessSubfeatures.call : Chunk → Feature ℚ) (LockedRun.inTurn 1 ++ LockedRun.inTurn 2)
      (.new (FastCDC.new 1 1 0) (BestFitIndex.new (.byInsertion _) 12) 1 [("a", some [7]), ("b", some [8, 7])])).map
        fun r => (r.adding, r.files)) = some (false, []) := by decide +kernel
  obtain ⟨r, hr, he⟩ := Option.map_eq_some_iff.1 hrun
  obtain ⟨hadding, hfiles⟩ := Prod.mk.inj he
  have hfirst : DrainsFiles [some [7]] (FastCDC.new 1 1 0) [[⟨[7], 0⟩]] _ := DrainsFiles.concat (.nil _)
    (show drainLoop 2 (Chunker.reinitWithFile (some [7]) (FastCDC.new 1 1 0)).2 = some ([⟨[7], 0⟩], _) from rfl)
  obtain ⟨css, cs, k, k', hd, hd', h⟩ := locks_edit (FeatureIndex.bestfit (ρ := ℚ) (.byInsertion _)) le_rfl le_rfl
    (by decide : 1 < 2 ^ 31 - 1) 0 1 [("a", some [7])] "b" (u := []) (v := [8]) (w := [7]) (by simp)
  obtain ⟨rfl, rfl⟩ := hd.unique hfirst
  obtain ⟨cs', fuel, hone, hcs⟩ := hd'.one
  obtain rfl := (List.cons.inj hone).1
  obtain ⟨rfl, -⟩ := Prod.mk.inj (drainLoop_unique _ hcs (show drainLoop 3 _ = some ([⟨[8], 1⟩, ⟨[7], 2⟩], _) from rfl))
  have hcut : CutAt (FastCut 1 1 0) ([8] ++ [7]) 1 :=
    ⟨[[8]], [7], .cut (n := 1) (by decide) (by decide) (.inr ⟨by decide, .inl (.inr ⟨rfl, fun i _ _ => by omega⟩)⟩)
      (.done _), rfl⟩
  obtain ⟨m, more, hm, hdata, hle⟩ := h (by decide) (by decide +kernel) 0 ⟨[], [7], .done _, rfl⟩ hcut _ r hr hadding hfiles
  exact ⟨_, r, m, more, hr, hm, hdata, hle⟩

end ChunkGrouping
