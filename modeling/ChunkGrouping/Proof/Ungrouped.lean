import ChunkGrouping.Proof.Layout

/-!
# A store without deltas

Nothing is grouped in such a store, so grouping should report no gain: both sides of the printed
improvement count each base chunk once. With zstd they do. With LZ4 the chunk counts as a frame
on one side, by `LZ4F_compressFrame`, and as a bare block on the other, by `LZ4_compress_default`.

* `storeWork_bases`: what is done for a store of bases.
* `ungrouped_gain_iff`: when the two sides grow alike.
-/

namespace ChunkGrouping

open GroupState

/-- **From `t` to `t'` the grouped sizes grow as the single ones do**, for each of the compressors. -/
structure AddsAlike (t t' : Totals) : Prop where
  lz4 : ∃ n, t'.totalSizeCompressed = t.totalSizeCompressed + n ∧
    t'.singleCompressedSize = t.singleCompressedSize + n
  zstd : ∃ n, t'.zstdTotalSizeCompressed = t.zstdTotalSizeCompressed + n ∧
    t'.zstdSingleSizeCompressed = t.zstdSingleSizeCompressed + n

variable {s : Storage} {rs : List Record}

theorem map_bytesOf (rs : List Record) : (List.range rs.length).map (bytesOf rs) = rs.map Record.bytes := by
  apply List.ext_getElem?
  intro k
  rw [List.getElem?_map, List.getElem?_map]
  rcases Nat.lt_or_ge k rs.length with hk | hk
  · rw [List.getElem?_range hk, List.getElem?_eq_getElem hk]
    simp [bytesOf, hk]
  · rw [List.getElem?_eq_none (by simpa using hk), List.getElem?_eq_none hk]
    rfl

/-- The group of a base alone. -/
theorem groupWork_nil (g : ℕ) (base : List UInt8) : groupWork g base [] = job false base := by
  unfold groupWork countWork baseWork
  rw [Batching.batches_nil]
  rfl

/-- All records are bases, and so are all ids. -/
theorem baseIds_of_bases (hbase : ∀ r ∈ rs, r.info.type = BaseChunk) : baseIds rs = List.range rs.length := by
  unfold baseIds
  refine List.filter_eq_self.2 fun k hk => decide_eq_true ?_
  have hlt := List.mem_range.1 hk
  rw [List.getElem?_eq_getElem hlt, Option.map_some, hbase _ (List.getElem_mem hlt)]

/-- **A store of bases**: each is compressed once, alone. -/
theorem storeWork_bases (g : ℕ) (hw : WellGrouped rs) (hbase : ∀ r ∈ rs, r.info.type = BaseChunk) :
    (storeWork g rs).jobs = rs.map fun r => ⟨false, r.bytes⟩ := by
  have hdelta : ∀ r ∈ rs, r.info.type ≠ DeltaChunk := fun r hr => by rw [hbase r hr]; decide
  have hjobs : ∀ b, (groupWork g (bytesOf rs b) (deltasOf b rs)).jobs = [⟨false, bytesOf rs b⟩] := by
    intro b
    rw [deltasOf_eq_nil hdelta, groupWork_nil]
    rfl
  unfold storeWork
  rw [Work.jobs_sum, toList_groupsOf hw, List.map_map, List.flatMap_map, baseIds_of_bases hbase]
  calc (List.range rs.length).flatMap (fun b => (groupWork g (bytesOf rs b) (deltasOf b rs)).jobs)
      = (List.range rs.length).flatMap (fun b => [⟨false, bytesOf rs b⟩]) :=
        List.flatMap_congr fun b _ => hjobs b
    _ = ((List.range rs.length).map (bytesOf rs)).map fun bytes => ⟨false, bytes⟩ := by
      rw [List.map_map, List.map_eq_flatMap]
      rfl
    _ = rs.map fun r => ⟨false, r.bytes⟩ := by
      rw [map_bytesOf, List.map_map]
      rfl

/-- **What one call counts** for a store of bases. -/
theorem groupByBase_bases (codec : Codec) (g : ℕ) (t : Totals) (h : StoreOK s rs) (hw : WellGrouped rs)
    (hbase : ∀ r ∈ rs, r.info.type = BaseChunk) :
    ∃ s', s.groupByBase codec g t = some s' ∧
      s'.totals.totalSizeCompressed = t.totalSizeCompressed + (rs.map fun r => codec.lz4Default r.bytes).sum ∧
      s'.totals.singleCompressedSize = t.singleCompressedSize + (rs.map fun r => codec.lz4Frame r.bytes).sum ∧
      s'.totals.zstdTotalSizeCompressed = t.zstdTotalSizeCompressed + (rs.map fun r => codec.zstd r.bytes).sum ∧
      s'.totals.zstdSingleSizeCompressed = t.zstdSingleSizeCompressed + (rs.map fun r => codec.zstd r.bytes).sum := by
  have hdelta : ∀ r ∈ rs, r.info.type ≠ DeltaChunk := fun r hr => by rw [hbase r hr]; decide
  have hjobs := storeWork_bases g hw hbase
  refine ⟨_, groupByBase_of codec h (.inr hdelta) hw.lt_length t, ?_, rfl, ?_, rfl⟩
  · change t.totalSizeCompressed + (storeWork g rs).lz4 codec = _
    rw [Work.lz4, hjobs, List.map_map]
    rfl
  · change t.zstdTotalSizeCompressed + (storeWork g rs).zstd codec = _
    rw [Work.zstd, hjobs, List.map_map]
    rfl

/-- **When no grouping means no gain.** The zstd sizes grow alike on both sides. The LZ4 sizes do exactly when the
frames of the base chunks are as long in all as their blocks: for any compressor at all only if there are none. -/
theorem ungrouped_gain_iff (g : ℕ) (t : Totals) (h : StoreOK s rs) (hw : WellGrouped rs)
    (hbase : ∀ r ∈ rs, r.info.type = BaseChunk) :
    (∀ codec : Codec, ∃ s', s.groupByBase codec g t = some s' ∧
      (AddsAlike t s'.totals ↔
        (rs.map fun r => codec.lz4Frame r.bytes).sum = (rs.map fun r => codec.lz4Default r.bytes).sum) ∧
      ∃ n, s'.totals.zstdTotalSizeCompressed = t.zstdTotalSizeCompressed + n ∧
        s'.totals.zstdSingleSizeCompressed = t.zstdSingleSizeCompressed + n) ∧
    ((∀ codec : Codec, ∃ s', s.groupByBase codec g t = some s' ∧ AddsAlike t s'.totals) ↔ rs = []) := by
  have hone : ∀ codec : Codec, ∃ s', s.groupByBase codec g t = some s' ∧
      (AddsAlike t s'.totals ↔
        (rs.map fun r => codec.lz4Frame r.bytes).sum = (rs.map fun r => codec.lz4Default r.bytes).sum) ∧
      ∃ n, s'.totals.zstdTotalSizeCompressed = t.zstdTotalSizeCompressed + n ∧
        s'.totals.zstdSingleSizeCompressed = t.zstdSingleSizeCompressed + n := by
    intro codec
    obtain ⟨s', hs', htotal, hsingle, hztotal, hzsingle⟩ := groupByBase_bases codec g t h hw hbase
    refine ⟨s', hs', ⟨fun halike => ?_, fun hsum => ⟨⟨_, htotal, ?_⟩, _, hztotal, hzsingle⟩⟩, _, hztotal, hzsingle⟩
    · obtain ⟨n, hn, hn'⟩ := halike.lz4
      omega
    · rw [hsingle, hsum]
  refine ⟨hone, fun hall => ?_, ?_⟩
  · -- frames of one byte around blocks of none
    obtain ⟨s', hs', halike⟩ := hall ⟨fun _ => 1, fun _ => 0, fun _ => 0⟩
    obtain ⟨s'', hs'', hiff, -⟩ := hone ⟨fun _ => 1, fun _ => 0, fun _ => 0⟩
    obtain rfl := Option.some.inj (hs'.symm.trans hs'')
    have hsum := hiff.1 halike
    simpa using hsum
  · rintro rfl codec
    obtain ⟨s', hs', hiff, -⟩ := hone codec
    exact ⟨s', hs', hiff.2 rfl⟩

/-- A base. -/
theorem oneBase_ok : StoreOK ((Storage.new 1).writeBaseChunk ⟨[1, 2], 0⟩) [recordAt 0 BaseChunk 0 [1, 2]] ∧
    WellGrouped [recordAt 0 BaseChunk 0 [1, 2]] := by
  obtain ⟨h, -, -⟩ := writeChunk_ok (storeOK_new 1) BaseChunk 0 ⟨[1, 2], 0⟩ (by decide) (by decide)
  refine ⟨h, fun k r hr _ => ?_, fun r hr ht => ?_⟩
  · rcases k with _ | k
    · obtain rfl := Option.some.inj hr
      rfl
    · cases hr
  · rw [List.mem_singleton.1 hr] at ht
    exact absurd ht (by decide)

/-- Two bases. -/
theorem twoBases_ok : StoreOK (((Storage.new 1).writeBaseChunk ⟨[1, 2], 0⟩).writeBaseChunk ⟨[3, 4, 5, 6], 1⟩)
      [recordAt 0 BaseChunk 0 [1, 2], recordAt 2 BaseChunk 1 [3, 4, 5, 6]] ∧
    WellGrouped [recordAt 0 BaseChunk 0 [1, 2], recordAt 2 BaseChunk 1 [3, 4, 5, 6]] := by
  obtain ⟨h₁, -, -⟩ := writeChunk_ok (storeOK_new 1) BaseChunk 0 ⟨[1, 2], 0⟩ (by decide) (by decide)
  obtain ⟨h₂, -, -⟩ := writeChunk_ok h₁ BaseChunk 1 ⟨[3, 4, 5, 6], 1⟩ (by decide) (by decide)
  refine ⟨h₂, fun k r hr _ => ?_, fun r hr ht => ?_⟩
  · rcases k with _ | _ | k
    · obtain rfl := Option.some.inj hr; rfl
    · obtain rfl := Option.some.inj hr; rfl
    · cases hr
  · simp only [List.mem_cons, List.not_mem_nil, or_false] at hr
    rcases hr with rfl | rfl <;> exact absurd ht (by decide)

/-- Two bases with frames of 4 and 8 bytes and blocks of 5 and 7: the gains are the same, though no frame is
as long as its block. With the 17 and 3 bytes of `fewBytes` they are not. -/
theorem ungrouped_gain_two :
    (∃ s', (((Storage.new 1).writeBaseChunk ⟨[1, 2], 0⟩).writeBaseChunk ⟨[3, 4, 5, 6], 1⟩).groupByBase
        ⟨fun bytes => 2 * bytes.length, fun bytes => bytes.length + 3, List.length⟩ 16 {} = some s' ∧
      AddsAlike {} s'.totals) ∧
    ∃ s', (((Storage.new 1).writeBaseChunk ⟨[1, 2], 0⟩).writeBaseChunk ⟨[3, 4, 5, 6], 1⟩).groupByBase
        .fewBytes 16 {} = some s' ∧ ¬ AddsAlike {} s'.totals := by
  obtain ⟨hok, hw⟩ := twoBases_ok
  obtain ⟨hgain, -⟩ := ungrouped_gain_iff 16 {} hok hw (by simp [recordAt])
  obtain ⟨s₁, hs₁, hiff₁, -⟩ := hgain ⟨fun bytes => 2 * bytes.length, fun bytes => bytes.length + 3, List.length⟩
  obtain ⟨s₂, hs₂, hiff₂, -⟩ := hgain .fewBytes
  exact ⟨⟨s₁, hs₁, hiff₁.2 (by decide)⟩, s₂, hs₂, fun halike => absurd (hiff₂.1 halike) (by decide)⟩

/-- One chunk of two bytes: 17 bytes as a frame, 3 as a block. -/
theorem ungrouped_gain_frame : ∃ s',
    ((Storage.new 1).writeBaseChunk ⟨[1, 2], 0⟩).groupByBase .fewBytes 16 {} = some s' ∧
      s'.totals.totalSizeCompressed = 3 ∧ s'.totals.singleCompressedSize = 17 ∧ ¬ AddsAlike {} s'.totals := by
  obtain ⟨s', hs', htotal, hsingle, -⟩ := groupByBase_bases .fewBytes 16 {} oneBase_ok.1 oneBase_ok.2
    (by simp [recordAt])
  refine ⟨s', hs', htotal, hsingle, fun halike => ?_⟩
  obtain ⟨n, hn, hn'⟩ := halike.lz4
  have hthree : s'.totals.totalSizeCompressed = 3 := htotal
  have hmany : s'.totals.singleCompressedSize = 17 := hsingle
  have hzero : ({} : Totals).totalSizeCompressed = 0 ∧ ({} : Totals).singleCompressedSize = 0 := ⟨rfl, rfl⟩
  omega

end ChunkGrouping
