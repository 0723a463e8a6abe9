import ChunkGrouping.Proof.PipelineStored
import ChunkGrouping.Proof.RabinReinit
import ChunkGrouping.Proof.References

/-!
# Both modes with `RabinCDC`

A scan of `RabinCDC` can run off the end of its file with bytes left. If the next file cannot be
mapped, `ReinitWithFile` leaves them there, and `GetNextChunk` reads behind the mapping. That is
the only way for either mode to crash; in the pipeline, where it is open, some schedule takes it.

* `CutUpBefore`: the files for which it is closed.
* `drainFiles_rabin_iff`: the files that can be drained one after the other.
* `CutsBelow`: a bound on the pieces, below `2^31` bytes of which a chunk shows all.
* `addFiles_safe_rabin_iff`: the sequential mode.
* `locks_safe_rabin_iff`: the pipeline, any schedule.
-/

namespace ChunkGrouping

open Cutting InsertMap CFile BoundedPipeline PipelineRun

variable {min max : ℕ} {mask : UInt64} {last : List UInt8} {s s' : RabinCDC} {content : FileContent}

/-! ## Files that cannot be mapped -/

/-- **Whenever a file cannot be mapped**, the last one before it that could was cut up. -/
def CutUpBefore (min max : ℕ) (mask : UInt64) (last : List UInt8) (files : List FileContent) : Prop :=
  ∀ before content after, files = before ++ content :: after → (MappedFile.open content).mapSuccess = false →
    RabinCutUp min max mask (lastMapped before last)

theorem cutUpBefore_nil : CutUpBefore min max mask last [] := by
  intro before content after hsplit
  simp at hsplit

theorem cutUpBefore_cons {files : List FileContent} : CutUpBefore min max mask last (content :: files) ↔
    ((MappedFile.open content).mapSuccess = false → RabinCutUp min max mask last) ∧
      CutUpBefore min max mask (lastMapped [content] last) files := by
  constructor
  · intro h
    refine ⟨h [] content files rfl, ?_⟩
    intro before c after hsplit hfail
    exact h (content :: before) c after (by rw [hsplit]; rfl) hfail
  · rintro ⟨hhead, htail⟩ before c after hsplit hfail
    cases before with
    | nil =>
      obtain ⟨rfl, -⟩ := List.cons.inj hsplit
      exact hhead hfail
    | cons b before =>
      obtain ⟨rfl, hrest⟩ := List.cons.inj hsplit
      exact htail before c after hrest hfail

/-! ## Drains -/

/-- **One file drains**, unless it cannot be mapped and the last one that could was not cut up. -/
theorem RabinDrained.drainFile_iff (h : RabinDrained min max mask last s) :
    (∃ cs s', drainFile content s = some (cs, s')) ↔
      ((MappedFile.open content).mapSuccess = false → RabinCutUp min max mask last) := by
  by_cases hmap : (MappedFile.open content).mapSuccess = true
  · constructor
    · intro _ hfail
      rw [hmap] at hfail
      cases hfail
    · intro _
      cases content with
      | none => cases hmap
      | some bytes =>
        obtain ⟨hok, -⟩ := rabinOK_reinit h.min h.max h.mask (MappedFile.mapSuccess_some.1 hmap)
        obtain ⟨cs, s', -, -, hd, -⟩ := drain_ok (fun _ => rabin_step) hok hok.length_rest.le
        exact ⟨cs, s', hd⟩
  · have hfail := Bool.eq_false_of_not_eq_true hmap
    rcases h.getNextChunk_failed hfail with ⟨hup, hget⟩ | ⟨hup, hget⟩
    · exact ⟨fun _ _ => hup, fun _ => ⟨_, _, drain_nullptr hget⟩⟩
    · constructor
      · rintro ⟨cs, s', hd⟩
        exact absurd (hd.symm.trans (drain_out_of_range hget)) (by simp)
      · intro hcut
        exact absurd (hcut hfail) hup

/-- As many rounds as `remaining_file_len` has bytes are enough. -/
theorem RabinDrained.drainFile_of_drainLoop (h : RabinDrained min max mask last s) {fuel : ℕ} {cs : List Chunk}
    (hd : drainLoop fuel (Chunker.reinitWithFile content s).2 = some (cs, s')) : drainFile content s = some (cs, s') := by
  have hsome : ∃ cs s', drainFile content s = some (cs, s') := by
    refine h.drainFile_iff.2 ?_
    intro hfail
    rcases h.getNextChunk_failed hfail with ⟨hup, -⟩ | ⟨-, hget⟩
    · exact hup
    · have hnone : Chunker.getNextChunk (Chunker.reinitWithFile content s).2 = none := hget
      cases fuel with
      | zero => cases hd
      | succ fuel =>
        rw [drainLoop, hnone] at hd
        cases hd
  obtain ⟨cs', s₁, hd'⟩ := hsome
  rw [drainLoop_unique _ hd hd']
  exact hd'

/-- **The files that can be drained** one after the other. -/
theorem drainFiles_rabin_iff (contents : List FileContent) : ∀ {last : List UInt8} {s : RabinCDC},
    RabinDrained min max mask last s →
      ((∃ css k, drainFiles contents s = some (css, k)) ↔ CutUpBefore min max mask last contents) := by
  induction contents with
  | nil =>
    intro last s _
    exact ⟨fun _ => cutUpBefore_nil, fun _ => ⟨[], s, rfl⟩⟩
  | cons content contents ih =>
    intro last s h
    rw [cutUpBefore_cons, ← h.drainFile_iff]
    constructor
    · rintro ⟨css, k, hd⟩
      obtain ⟨⟨cs, s₁⟩, hfile, hd⟩ := Option.bind_eq_some_iff.1 hd
      obtain ⟨⟨rest, s₂⟩, hrest, -⟩ := Option.bind_eq_some_iff.1 hd
      exact ⟨⟨cs, s₁, hfile⟩, (ih (drainFile_drained h hfile)).1 ⟨rest, s₂, hrest⟩⟩
    · rintro ⟨⟨cs, s₁, hfile⟩, hcut⟩
      obtain ⟨css, k, hrest⟩ := (ih (drainFile_drained h hfile)).2 hcut
      exact ⟨cs :: css, k, by simp [drainFiles, hfile, hrest]⟩

theorem RabinDrained.drainFiles_of_drainsFiles (contents : List FileContent) : ∀ {last : List UInt8} {s k : RabinCDC}
    {css : List (List Chunk)}, RabinDrained min max mask last s → DrainsFiles contents s css k →
      drainFiles contents s = some (css, k) := by
  induction contents with
  | nil =>
    intro last s k css _ hd
    obtain ⟨rfl, rfl⟩ := hd.unique (.nil s)
    rfl
  | cons content contents ih =>
    intro last s k css h hd
    have hsplit : DrainsFiles ([content] ++ contents) s css k := hd
    obtain ⟨css₁, css₂, k₁, rfl, hd₁, hd₂⟩ := hsplit.split
    obtain ⟨cs, fuel, rfl, hone⟩ := hd₁.one
    have hfile := h.drainFile_of_drainLoop hone
    have hrest := ih (drainFile_drained h hfile) hd₂
    simp [drainFiles, hfile, hrest]

/-- As many rounds as it takes. -/
theorem drainsFiles_rabin_iff (contents : List FileContent) (h : RabinDrained min max mask last s) :
    (∃ css k, DrainsFiles contents s css k) ↔ CutUpBefore min max mask last contents := by
  rw [← drainFiles_rabin_iff contents h]
  constructor
  · rintro ⟨css, k, hd⟩
    exact ⟨css, k, h.drainFiles_of_drainsFiles contents hd⟩
  · rintro ⟨css, k, hd⟩
    exact ⟨css, k, drainsFiles_of_drainFiles _ hd⟩

/-! ## The pieces -/

/-- **No piece that the chunker cuts off a file is `bound` bytes or more.** -/
def CutsBelow (bound min max : ℕ) (mask : UInt64) (contents : List FileContent) : Prop :=
  ∀ content ∈ contents, ∀ ps r, Chop (RabinPiece min max mask) (MappedFile.open content).mapped ps r →
    ∀ p ∈ ps, p.length < bound

/-- The sizes bound the pieces. -/
theorem cutsBelow_of_lt {bound : ℕ} (hone : 1 < bound) (hmin : min < bound) (hmax : max < bound)
    (contents : List FileContent) : CutsBelow bound min max mask contents := by
  intro content _ ps r hchop
  refine hchop.forall_of fun l n hpos hn hpiece => ?_
  rw [List.length_take_of_le hn]
  rcases hpiece with ⟨hle, rfl⟩ | ⟨-, -, -, -, hfirst⟩
  · omega
  · by_contra hlarge
    -- the loop would have stopped at the maximum, or at one byte
    exact hfirst (max ⊔ 1) (by omega) (by omega) (.inr le_sup_left)

/-- The chunks of one file show its pieces. -/
theorem RabinDrained.drainFile_pieces (h : RabinDrained min max mask last s) {cs : List Chunk}
    (hd : drainFile content s = some (cs, s')) :
    ∃ ps r, Chop (RabinPiece min max mask) (MappedFile.open content).mapped ps r ∧ cs.map Chunk.buf = ps.map shown := by
  by_cases hmap : (MappedFile.open content).mapSuccess = true
  · cases content with
    | none => cases hmap
    | some bytes =>
      have hne := MappedFile.mapSuccess_some.1 hmap
      obtain ⟨hok, hrest⟩ := rabinOK_reinit h.min h.max h.mask hne
      obtain ⟨cs', s₁, ps, r, hd', hdrain⟩ := drain_ok (fun _ => rabin_step) hok hok.length_rest.le
      obtain ⟨rfl, -⟩ := Prod.mk.inj (Option.some.inj (hd.symm.trans hd'))
      rw [MappedFile.open_some]
      exact ⟨ps, _, hrest ▸ hdrain.chop, hdrain.bytes⟩
  · rcases h.getNextChunk_failed (Bool.eq_false_of_not_eq_true hmap) with ⟨-, hget⟩ | ⟨-, hget⟩
    · obtain ⟨rfl, -⟩ := Prod.mk.inj (Option.some.inj (hd.symm.trans (drain_nullptr hget)))
      exact ⟨[], _, .done _, rfl⟩
    · exact absurd (hd.symm.trans (drain_out_of_range hget)) (by simp)

/-- **Every chunk shows a piece below the bound.** -/
theorem RabinDrained.chunks_below {bound : ℕ} (contents : List FileContent) : ∀ {last : List UInt8} {s k : RabinCDC}
    {css : List (List Chunk)}, RabinDrained min max mask last s → CutsBelow bound min max mask contents →
      drainFiles contents s = some (css, k) →
      ∀ c ∈ css.flatten, ∃ p, c.buf = shown p ∧ 0 < p.length ∧ p.length < bound := by
  induction contents with
  | nil =>
    intro last s k css _ _ hd
    obtain ⟨rfl, -⟩ := Prod.mk.inj (Option.some.inj hd)
    simp
  | cons content contents ih =>
    intro last s k css h hcuts hd
    obtain ⟨⟨cs, s₁⟩, hfile, hd⟩ := Option.bind_eq_some_iff.1 hd
    obtain ⟨⟨rest, s₂⟩, hrest, hd⟩ := Option.bind_eq_some_iff.1 hd
    obtain ⟨rfl, -⟩ := Prod.mk.inj (Option.some.inj hd)
    intro c hc
    rw [List.flatten_cons, List.mem_append] at hc
    rcases hc with hc | hc
    · obtain ⟨ps, r, hchop, hbytes⟩ := h.drainFile_pieces hfile
      have hmem : c.buf ∈ ps.map shown := hbytes ▸ List.mem_map_of_mem hc
      obtain ⟨p, hp, hshown⟩ := List.mem_map.1 hmem
      have hpos : ∀ p ∈ ps, 0 < p.length := hchop.forall_of fun l n h0 hn _ => by
        rwa [List.length_take_of_le hn]
      exact ⟨p, hshown.symm, hpos p hp, hcuts content List.mem_cons_self ps r hchop p hp⟩
    · exact ih (drainFile_drained h hfile) (fun b hb => hcuts b (List.mem_cons_of_mem _ hb)) hrest c hc

/-! ## The sequential mode -/

section Sequential

variable {κ ι φ : Type} [Chunker κ] [Index ι φ] {codec : Codec} {feature : Chunk → φ}

/-- **A run that returned** has drained its files. -/
theorem drainFiles_of_addFiles (files : List (String × FileContent)) : ∀ {d d' : DeltaCompression κ ι},
    d.addFiles codec feature files = some d' →
      ∃ css, drainFiles (files.map Prod.snd) d.chunker = some (css, d'.chunker) := by
  induction files with
  | nil =>
    intro d d' h
    obtain rfl := Option.some.inj h
    exact ⟨[], rfl⟩
  | cons file files ih =>
    intro d d' h
    obtain ⟨name, content⟩ := file
    simp only [DeltaCompression.addFiles, Option.bind_eq_bind, Option.bind_eq_some_iff] at h
    obtain ⟨d₁, h₁, h⟩ := h
    obtain ⟨cs, k, -, -, -, hd, -, -, -, rfl, -⟩ := addFile_cases h₁
    obtain ⟨css, hrest⟩ := ih h
    exact ⟨cs :: css, by simp [drainFiles, hd, hrest]⟩

end Sequential

/-- **When the sequential mode with `RabinCDC` returns.** With any sizes and mask, whatever the window held before, with
either feature and index, a cache of at least 1 MiB, pieces that fit a record and chunks that fit an offset: all `AddFile`
calls return if and only if whenever a file cannot be mapped, the last one before it that could was cut up. -/
theorem addFiles_safe_rabin_iff {ι φ : Type} [Index ι φ] [LawfulIndex ι φ] (p : FeatureIndex ι φ) (min max : ℕ)
    (mask : UInt64) (junk : RabinWindow) (codec : Codec) {cacheSize : ℕ}
    (hcache : 2 ^ 20 ≤ (ChunkCache.new cacheSize).maxMemoryUsage) (files : List (String × FileContent))
    (hcuts : CutsBelow 65536 min max mask (files.map Prod.snd))
    (hbytes : ∀ css k, drainFiles (files.map Prod.snd) (RabinCDC.new min max mask junk) = some (css, k) →
      (css.flatten.map Chunk.len).sum < 2 ^ 64) :
    ((DeltaCompression.new (RabinCDC.new min max mask junk) p.index cacheSize).addFiles codec p.feature files).isSome ↔
      CutUpBefore min max mask [] (files.map Prod.snd) := by
  rw [← drainFiles_rabin_iff _ (rabinDrained_new min max mask junk)]
  constructor
  · intro hsome
    obtain ⟨d, hadd⟩ := Option.isSome_iff_exists.1 hsome
    obtain ⟨css, hd⟩ := drainFiles_of_addFiles files hadd
    exact ⟨css, d.chunker, hd⟩
  · rintro ⟨css, k, hd⟩
    have hlen : ∀ c ∈ css.flatten, c.len ≤ 65535 := by
      intro c hc
      obtain ⟨p, hp, -, hbelow⟩ := (rabinDrained_new min max mask junk).chunks_below _ hcuts hd c hc
      have hle := length_shown_le p
      rw [← hp] at hle
      exact hle.trans (Nat.le_of_lt_succ hbelow)
    have hnew : FilesFit [] (files.map Prod.snd) (RabinCDC.new min max mask junk) css :=
      ⟨⟨k, hd⟩, rfl, hlen, lt_of_eq_of_lt (Nat.zero_add _) (hbytes css k hd)⟩
    obtain ⟨d, uss, hadd, -⟩ := addFiles_returns codec p.fits files
      (d := .new (RabinCDC.new min max mask junk) p.index cacheSize) (seqLog_new p cacheSize) (logOK_new hcache).cache hnew
    rw [hadd]
    rfl

/-- A file cut after three of its five bytes, then one that cannot be mapped. -/
theorem drainFiles_five : ∃ k, drainFiles [some [3, 1, 4, 1, 5], none] (RabinCDC.new 2 8 3 .rabinReset) =
    some ([[⟨[3, 1, 4], 0⟩, ⟨[1, 5], 1⟩], []], k) := by
  have hcss : (drainFiles [some [3, 1, 4, 1, 5], none] (RabinCDC.new 2 8 3 .rabinReset)).map Prod.fst =
      some [[⟨[3, 1, 4], 0⟩, ⟨[1, 5], 1⟩], []] := by decide +kernel
  obtain ⟨⟨css, k⟩, hdrain, rfl⟩ := Option.map_eq_some_iff.1 hcss
  exact ⟨k, hdrain⟩

theorem cutUpBefore_five : CutUpBefore 2 8 3 [] [some [3, 1, 4, 1, 5], none] := by
  obtain ⟨k, hdrain⟩ := drainFiles_five
  exact (drainFiles_rabin_iff _ (rabinDrained_new 2 8 3 .rabinReset)).1 ⟨_, k, hdrain⟩

/-- The sequential mode returns. -/
theorem addFiles_safe_rabin_iff_five : CutUpBefore 2 8 3 [] [some [3, 1, 4, 1, 5], none] ∧
    ((DeltaCompression.new (RabinCDC.new 2 8 3 .rabinReset) (BestFitIndex.new (.byInsertion _) 12) 1).addFiles .fewBytes
      (OdessSubfeatures.call : Chunk → Feature ℚ) [("a", some [3, 1, 4, 1, 5]), ("b", none)]).isSome := by
  obtain ⟨k, hdrain⟩ := drainFiles_five
  refine ⟨cutUpBefore_five, (addFiles_safe_rabin_iff (FeatureIndex.bestfit (ρ := ℚ) (.byInsertion _)) 2 8 3 .rabinReset
    .fewBytes (show 2 ^ 20 ≤ (ChunkCache.new 1).maxMemoryUsage by decide) [("a", some [3, 1, 4, 1, 5]), ("b", none)]
    (cutsBelow_of_lt (by decide) (by decide) (by decide) _) ?_).2 cutUpBefore_five⟩
  intro css' k' hd
  obtain ⟨rfl, -⟩ := Prod.mk.inj (Option.some.inj (hdrain.symm.trans hd))
  decide

/-! ## Any schedule -/

variable {ι φ : Type} [Index ι φ] [LawfulIndex ι φ] [Inhabited φ]

/-- **When the pipeline with `RabinCDC` is safe.** With any sizes and mask that cut pieces below `2^31` bytes, whatever the
window held before, with either feature and index, a cache of a chunk at least and at most `2^32` chunks: no worker crashes
under any schedule if and only if whenever a file cannot be mapped, the last one before it that could was cut up. No
`int` length that `sha1_hash` is called with is negative, or 0. -/
theorem locks_safe_rabin_iff (p : FeatureIndex ι φ) (min max : ℕ) (mask : UInt64) (junk : RabinWindow) {cacheSize : ℕ}
    (hcache : 2 ^ 16 ≤ (ChunkCache.new cacheSize).maxMemoryUsage) (files : List (String × FileContent))
    (hcuts : CutsBelow (2 ^ 31) min max mask (files.map Prod.snd))
    (hcount : ∀ css k, DrainsFiles (files.map Prod.snd) (RabinCDC.new min max mask junk) css k →
      css.flatten.length ≤ 2 ^ 32) :
    ((∀ schedule (r : LockedRun RabinCDC ι φ),
        LockedRun.exec p.feature schedule (.new (RabinCDC.new min max mask junk) p.index cacheSize files) = some r →
        ∀ w, r.pipe.pc w ≠ .crashed) ↔
      CutUpBefore min max mask [] (files.map Prod.snd)) ∧
    ∀ css k, DrainsFiles (files.map Prod.snd) (RabinCDC.new min max mask junk) css k →
      ∀ c ∈ css.flatten, 0 < c.len ∧ c.len < 2 ^ 31 := by
  have hk₀ : Chunker.nextChunkId (RabinCDC.new min max mask junk) = 0 := rfl
  have hdrained := rabinDrained_new min max mask junk
  have hlen : ∀ css k, DrainsFiles (files.map Prod.snd) (RabinCDC.new min max mask junk) css k →
      ∀ c ∈ css.flatten, 0 < c.len ∧ c.len < 2 ^ 31 := by
    intro css k hd c hc
    obtain ⟨p, hp, hpos, hbelow⟩ := hdrained.chunks_below _ hcuts (hdrained.drainFiles_of_drainsFiles _ hd) c hc
    rw [shown_eq hbelow] at hp
    unfold Chunk.len
    rw [hp]
    exact ⟨hpos, hbelow⟩
  refine ⟨?_, hlen⟩
  rw [← drainsFiles_rabin_iff _ hdrained]
  constructor
  · intro hsafe
    -- a run that is heard goes on to its end, and as nobody crashes, all files have been added there
    have hgoing : LockedRun.Going p.feature (fun _ => True)
        (.new (RabinCDC.new min max mask junk) p.index cacheSize files) := LockedRun.going_new trivial ..
    obtain ⟨r, hruns, hend⟩ := hgoing.ends rabinCDC_shortens
    obtain ⟨schedule, hexec⟩ := LockedRun.exec_of_runs hruns
    have hok := LockedRun.runOK_of_runs hruns
      (LockedRun.runOK_new p.feature (RabinCDC.new min max mask junk) p.index cacheSize files)
    rcases hok.ended hend with ⟨w, -, hw⟩ | ⟨hadding, hfiles⟩
    · exact absurd hw (hsafe schedule r hexec w)
    · obtain ⟨css, metas, hadded⟩ := LockedRun.added hk₀ hexec hadding hfiles
      exact ⟨css, _, hadded.drained⟩
  · rintro ⟨css, k, hd⟩ schedule r hr w
    obtain ⟨m, hm⟩ := processChunks_returns p hcache css.flatten (hd.ids hk₀).1 (hcount css k hd)
    exact LockedRun.not_crashed hk₀ hd hm hr w

/-- No schedule crashes. -/
theorem locks_safe_rabin_iff_five : CutUpBefore 2 8 3 [] [some [3, 1, 4, 1, 5], none] ∧
    ∀ schedule (r : LockedRun RabinCDC BestFitIndex (Feature ℚ)),
      LockedRun.exec OdessSubfeatures.call schedule (.new (RabinCDC.new 2 8 3 .rabinReset)
        (BestFitIndex.new (.byInsertion _) 12) 1 [("a", some [3, 1, 4, 1, 5]), ("b", none)]) = some r →
      ∀ w, r.pipe.pc w ≠ .crashed := by
  obtain ⟨k, hdrain⟩ := drainFiles_five
  refine ⟨cutUpBefore_five, (locks_safe_rabin_iff (FeatureIndex.bestfit (ρ := ℚ) (.byInsertion _)) 2 8 3 .rabinReset
    (show 2 ^ 16 ≤ (ChunkCache.new 1).maxMemoryUsage by decide) [("a", some [3, 1, 4, 1, 5]), ("b", none)]
    (cutsBelow_of_lt (by decide) (by decide) (by decide) _) ?_).1.2 cutUpBefore_five⟩
  intro css' k' hd
  obtain ⟨rfl, -⟩ := hd.unique (drainsFiles_of_drainFiles _ hdrain)
  simp

end ChunkGrouping
