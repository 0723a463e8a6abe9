import ChunkGrouping.Proof.Group

/-!
# Every chunk in one buffer

With batches of 16 the base of a group is compressed once: in front of the last batch
when that is short, alone when no batch is. `layout rs` lists the buffers of a store by
the ids of the chunks in them.

* `jobs_sizedLayout`: the buffers of a store, for any size of the batches.
* `flatten_layout`: each base and each delta chunk is in one buffer, once.
* `sizes_storeWork`: the compressed sizes are those of the buffers.
* `groupByBase_once`: what one call compresses and counts.
-/

namespace ChunkGrouping

open Batching GroupState

/-- The ids of the delta records against `b`, in write order. -/
def deltaIds (b : ℕ) (rs : List Record) : List ℕ :=
  (List.range rs.length).filter fun k =>
    rs[k]?.any fun r => r.info.type = DeltaChunk ∧ r.info.baseChunkId.toNat = b

/-- The ids of all delta records. -/
def allDeltaIds (rs : List Record) : List ℕ :=
  (List.range rs.length).filter fun k => rs[k]?.any fun r => r.info.type = DeltaChunk

/-- The buffers of the group of `b` with the deltas `ds`: batches of 16 deltas, and a last buffer
with the base and the deltas left, if any. -/
def groupLayout (b : ℕ) (ds : List ℕ) : List (List ℕ) :=
  ((List.range (ds.length / 16)).map fun j => (ds.drop (16 * j)).take 16) ++
    [b :: ds.drop (16 * (ds.length / 16))]

/-- The buffers of a store. -/
def layout (rs : List Record) : List (List ℕ) :=
  (baseIds rs).flatMap fun b => groupLayout b (deltaIds b rs)

/-- The buffers of the group of `b` with the deltas `ds`, in batches of `g`. -/
def sizedGroupLayout (g b : ℕ) (ds : List ℕ) : List (List ℕ) :=
  ((batches g ds).map fun batch => if batch.length < 16 then b :: batch else batch) ++
    if ds.length % 16 = 0 then [[b]] else []

/-- The buffers of a store, in batches of `g`. -/
def sizedLayout (g : ℕ) (rs : List Record) : List (List ℕ) :=
  (baseIds rs).flatMap fun b => sizedGroupLayout g b (deltaIds b rs)

variable {rs : List Record} {g : ℕ}

/-- Filtering a list is filtering its positions. -/
theorem filter_map_positions {β : Type} (p : Record → Bool) (f : Record → β) (x : β) (rs : List Record) :
    (rs.filter p).map f =
      ((List.range rs.length).filter fun k => rs[k]?.any p).map fun k => (rs[k]?.map f).getD x := by
  induction rs using List.reverseRecOn with
  | nil => rfl
  | append_singleton rs r ih =>
    have hold : ∀ k ∈ List.range rs.length, (rs ++ [r])[k]? = rs[k]? := fun k hk =>
      List.getElem?_append_left (List.mem_range.1 hk)
    have hlast : (rs ++ [r])[rs.length]? = some r := by simp
    rw [List.filter_append, List.map_append, ih, List.length_append, List.length_singleton,
      List.range_succ, List.filter_append, List.map_append]
    refine congrArg₂ _ ?_ ?_
    · have hf : (List.range rs.length).filter (fun k => (rs ++ [r])[k]?.any p) =
          (List.range rs.length).filter fun k => rs[k]?.any p :=
        List.filter_congr fun k hk => by rw [hold k hk]
      rw [hf]
      refine List.map_congr_left fun k hk => ?_
      rw [hold k (List.mem_of_mem_filter hk)]
    · cases hp : p r <;> simp [hp]

theorem filter_eq_positions (p : Record → Bool) (rs : List Record) :
    (rs.filter p).map Record.bytes =
      ((List.range rs.length).filter fun k => rs[k]?.any p).map (bytesOf rs) :=
  filter_map_positions p Record.bytes [] rs

theorem map_buf_deltasOf (b : ℕ) (rs : List Record) :
    (deltasOf b rs).map Chunk.buf = (deltaIds b rs).map (bytesOf rs) := by
  unfold deltasOf deltaIds
  rw [List.map_map, ← filter_eq_positions]
  rfl

theorem mem_deltaIds {b k : ℕ} : k ∈ deltaIds b rs ↔
    ∃ r, rs[k]? = some r ∧ r.info.type = DeltaChunk ∧ r.info.baseChunkId.toNat = b := by
  unfold deltaIds
  rw [List.mem_filter, List.mem_range]
  constructor
  · rintro ⟨-, h⟩
    simpa [Option.any_eq_true] using h
  · rintro ⟨r, hr, ht⟩
    exact ⟨(List.getElem?_eq_some_iff.1 hr).1, by simp [hr, ht]⟩

theorem nodup_baseIds (rs : List Record) : (baseIds rs).Nodup := List.nodup_range.filter _

theorem mem_allDeltaIds {k : ℕ} :
    k ∈ allDeltaIds rs ↔ ∃ r, rs[k]? = some r ∧ r.info.type = DeltaChunk := by
  unfold allDeltaIds
  rw [List.mem_filter, List.mem_range]
  constructor
  · rintro ⟨-, h⟩
    simpa [Option.any_eq_true] using h
  · rintro ⟨r, hr, ht⟩
    exact ⟨(List.getElem?_eq_some_iff.1 hr).1, by simp [hr, ht]⟩

/-- **The deltas, group by group**, are all deltas. -/
theorem flatMap_deltaIds (hw : WellGrouped rs) :
    ((baseIds rs).flatMap fun b => deltaIds b rs).Perm (allDeltaIds rs) := by
  set key : ℕ → ℕ := fun k => (rs[k]?.map fun r => r.info.baseChunkId.toNat).getD 0 with hkeydef
  have hkey : ∀ b, deltaIds b rs = (allDeltaIds rs).filter fun k => key k = b := by
    intro b
    unfold deltaIds allDeltaIds
    rw [List.filter_filter]
    refine List.filter_congr fun k hk => ?_
    have hlt := List.mem_range.1 hk
    simp only [hkeydef, List.getElem?_eq_getElem hlt]
    simp [Bool.and_comm]
  simp only [hkey]
  refine flatMap_filter_perm key (nodup_baseIds rs) _ fun k hk => ?_
  obtain ⟨r, hr, ht⟩ := mem_allDeltaIds.1 hk
  rw [mem_baseIds]
  simp only [hkeydef, hr]
  exact hw.delta r (List.mem_of_getElem? hr) ht

theorem flatten_groupLayout (b : ℕ) (ds : List ℕ) : (groupLayout b ds).flatten.Perm (b :: ds) := by
  have hfull : ((List.range (ds.length / 16)).map fun j => (ds.drop (16 * j)).take 16).flatten ++
      ds.drop (16 * (ds.length / 16)) = ds := by
    have h := flatten_batches (by omega : 0 < 16) ds
    rw [batches_eq (by omega : 0 < 16), List.flatten_append] at h
    split at h
    · rename_i h0
      have : 16 * (ds.length / 16) = ds.length := by omega
      rw [this, List.drop_length]
      simpa using h
    · simpa using h
  unfold groupLayout
  rw [List.flatten_append, List.flatten_singleton]
  refine List.perm_middle.trans ?_
  rw [hfull]

/-- **Each base and each delta chunk is in one buffer, once.** -/
theorem flatten_layout (hw : WellGrouped rs) :
    (layout rs).flatten.Perm (baseIds rs ++ allDeltaIds rs) := by
  have h1 : (layout rs).flatten.Perm ((baseIds rs).flatMap fun b => b :: deltaIds b rs) := by
    unfold layout
    rw [← List.flatMap_id, List.flatMap_assoc]
    simp only [List.flatMap_id]
    exact List.Perm.flatMap_left _ fun b _ => flatten_groupLayout b _
  refine h1.trans ?_
  have h2 := List.flatMap_append_perm (baseIds rs) (fun b => [b]) fun b => deltaIds b rs
  refine h2.symm.trans ?_
  rw [show (baseIds rs).flatMap (fun b => [b]) = baseIds rs from List.flatMap_singleton' _]
  exact (flatMap_deltaIds hw).append_left _

/-- **Batches of 16**: the base is in the last buffer, in front of a short batch or alone. -/
theorem sizedGroupLayout_sixteen (b : ℕ) (ds : List ℕ) : sizedGroupLayout 16 b ds = groupLayout b ds := by
  have hfull : ((List.range (ds.length / 16)).map fun j => (ds.drop (16 * j)).take 16).map
      (fun batch => if batch.length < 16 then b :: batch else batch) =
        (List.range (ds.length / 16)).map fun j => (ds.drop (16 * j)).take 16 := by
    rw [List.map_map]
    refine List.map_congr_left fun j hj => ?_
    rw [List.mem_range] at hj
    have hlen : ((ds.drop (16 * j)).take 16).length = 16 := by
      rw [List.length_take, List.length_drop]
      omega
    rw [Function.comp_apply, hlen, if_neg (lt_irrefl 16)]
  unfold sizedGroupLayout groupLayout
  rw [batches_eq (by omega), List.map_append, hfull, List.append_assoc]
  congr 1
  by_cases h0 : ds.length % 16 = 0
  · have hall : 16 * (ds.length / 16) = ds.length := by omega
    rw [if_pos h0, if_pos h0, hall, List.drop_length]
    rfl
  · have hshort : (ds.drop (16 * (ds.length / 16))).length < 16 := by
      rw [List.length_drop]
      omega
    rw [if_neg h0, if_neg h0, List.map_singleton, if_pos hshort, List.append_nil]

theorem sizeOrigin_groupWork (base : List UInt8) (ds : List Chunk) :
    (groupWork 16 base ds).sizeOrigin = (ds.map Chunk.len).sum := by
  have hcount : (countWork ds).sizeOrigin = 0 := by unfold countWork; split <;> rfl
  have hbase : (baseWork base ds).sizeOrigin = 0 := by unfold baseWork; split <;> rfl
  unfold groupWork
  rw [Work.sizeOrigin_add, Work.sizeOrigin_add, Work.sizeOrigin_sum, hcount, hbase, Nat.zero_add,
    Nat.add_zero, List.map_map]
  calc ((batches 16 ds).map (Work.sizeOrigin ∘ batchWork base)).sum
      = ((batches 16 ds).map fun batch => (batch.map Chunk.len).sum).sum := rfl
    _ = ((batches 16 ds).flatten.map Chunk.len).sum := by
      rw [List.map_flatten, List.sum_flatten, List.map_map]; rfl
    _ = (ds.map Chunk.len).sum := by rw [flatten_batches (by omega)]

/-- A base names itself, a delta names a base: the groups are among the records. -/
theorem WellGrouped.lt_length (hw : WellGrouped rs) (b : ℕ) (r : Record) (hr : r ∈ rs)
    (hb : r.InGroup b) : b < rs.length := by
  obtain ⟨r', hr', -⟩ := mem_baseIds.1 ((inGroup_iff hw b).1 ⟨r, hr, hb⟩)
  exact (List.getElem?_eq_some_iff.1 hr').1

/-- The buffers of a group. -/
theorem jobs_groupWork_sized (base : List UInt8) (ds : List Chunk) :
    (groupWork g base ds).jobs.map Job.bytes =
      ((batches g ds).map fun batch => (if batch.length < 16 then base else []) ++ (batch.map Chunk.buf).flatten) ++
        if ds.length % 16 = 0 then [base] else [] := by
  have hcount : (countWork ds).jobs = [] := by unfold countWork; split <;> rfl
  unfold groupWork baseWork
  rw [Work.jobs_add, Work.jobs_add, Work.jobs_sum, hcount, List.nil_append, List.map_append, List.map_flatMap,
    List.flatMap_map]
  congr 1
  · rw [List.map_eq_flatMap]
    rfl
  · split
    · rfl
    · rfl

/-- The buffers of the group of `b` are those of its layout. -/
theorem jobs_sized (g b : ℕ) (rs : List Record) :
    (groupWork g (bytesOf rs b) (deltasOf b rs)).jobs.map Job.bytes =
      (sizedGroupLayout g b (deltaIds b rs)).map fun ids => ids.flatMap (bytesOf rs) := by
  set base := bytesOf rs b with hbase
  -- both sides cut the same list of contents
  have hbufs : ∀ {α : Type} (content : α → List UInt8) (l : List α),
      ((batches g l).map fun batch => (if batch.length < 16 then base else []) ++ (batch.map content).flatten) =
        (batches g (l.map content)).map fun bufs => (if bufs.length < 16 then base else []) ++ bufs.flatten := by
    intro α content l
    rw [← map_batches, List.map_map]
    exact List.map_congr_left fun batch _ => by simp
  have hlen : (deltasOf b rs).length = (deltaIds b rs).length := by
    simpa using congrArg List.length (map_buf_deltasOf b rs)
  rw [jobs_groupWork_sized, hbufs Chunk.buf, map_buf_deltasOf, ← hbufs, hlen]
  unfold sizedGroupLayout
  rw [List.map_append, List.map_map]
  congr 1
  · refine List.map_congr_left fun batch _ => ?_
    simp only [Function.comp_apply]
    split
    · rw [List.flatMap_cons, List.flatMap_def]
    · rw [List.nil_append, List.flatMap_def]
  · split
    · simp [hbase]
    · rfl

theorem jobs_sizedLayout (g : ℕ) (hw : WellGrouped rs) :
    (storeWork g rs).jobs.map Job.bytes = (sizedLayout g rs).map fun ids => ids.flatMap (bytesOf rs) := by
  unfold storeWork sizedLayout
  rw [Work.jobs_sum, toList_groupsOf hw, List.map_map, List.flatMap_map, List.map_flatMap,
    List.map_flatMap]
  exact List.flatMap_congr fun b _ => jobs_sized g b rs

/-- The buffers of a store are those of its layout. -/
theorem jobs_storeWork (hw : WellGrouped rs) :
    (storeWork 16 rs).jobs.map Job.bytes = (layout rs).map fun ids => ids.flatMap (bytesOf rs) := by
  have hlayout : sizedLayout 16 rs = layout rs := List.flatMap_congr fun b _ => sizedGroupLayout_sixteen b _
  rw [jobs_sizedLayout 16 hw, hlayout]

/-! ## Which of them are frames -/

/-- Every buffer is made a frame but the base alone. -/
theorem frames_groupWork (base : List UInt8) (ds : List Chunk) : (groupWork g base ds).jobs.map Job.frame =
    (batches g ds).map (fun _ => true) ++ if ds.length % 16 = 0 then [false] else [] := by
  have hcount : (countWork ds).jobs = [] := by unfold countWork; split <;> rfl
  unfold groupWork baseWork
  rw [Work.jobs_add, Work.jobs_add, Work.jobs_sum, hcount, List.nil_append, List.map_append, List.map_flatMap,
    List.flatMap_map]
  congr 1
  · rw [List.map_eq_flatMap]
    rfl
  · split
    · rfl
    · rfl

/-- A buffer of one chunk is a base alone. -/
theorem frames_sized (hg : 0 < g) (b : ℕ) (base : List UInt8) {ds : List Chunk} {ids : List ℕ}
    (hlen : ds.length = ids.length) : (groupWork g base ds).jobs.map Job.frame =
      (sizedGroupLayout g b ids).map fun buffer => decide (buffer.length ≠ 1) := by
  have hcount : (batches g ds).length = (batches g ids).length := by
    unfold batches
    rw [List.length_map, List.length_map, hlen]
  have hframes : (batches g ids).map ((fun buffer : List ℕ => decide (buffer.length ≠ 1)) ∘
      fun batch => if batch.length < 16 then b :: batch else batch) = (batches g ids).map fun _ => true := by
    refine List.map_congr_left fun batch hbatch => ?_
    have hpos := List.length_pos_iff.2 (ne_nil_of_mem_batches hg hbatch)
    rw [Function.comp_apply]
    refine decide_eq_true ?_
    split
    · rw [List.length_cons]
      omega
    · omega
  unfold sizedGroupLayout
  rw [frames_groupWork, hlen, List.map_append, List.map_map, hframes, List.map_const', List.map_const', hcount]
  congr 1
  split <;> rfl

theorem frames_storeWork (hw : WellGrouped rs) :
    (storeWork 16 rs).jobs.map Job.frame = (layout rs).map fun buffer => decide (buffer.length ≠ 1) := by
  unfold storeWork layout
  rw [Work.jobs_sum, toList_groupsOf hw, List.map_map, List.flatMap_map, List.map_flatMap, List.map_flatMap]
  refine List.flatMap_congr fun b _ => ?_
  rw [← sizedGroupLayout_sixteen]
  exact frames_sized (by omega) b _ (by simpa using congrArg List.length (map_buf_deltasOf b rs))

/-- The size LZ4 returns for a buffer of the layout: a base alone is not made a frame. -/
def lz4Size (codec : Codec) (rs : List Record) (ids : List ℕ) : ℕ :=
  if ids.length = 1 then codec.lz4Default (ids.flatMap (bytesOf rs)) else codec.lz4Frame (ids.flatMap (bytesOf rs))

/-- The size zstd returns for a buffer of the layout. -/
def zstdSize (codec : Codec) (rs : List Record) (ids : List ℕ) : ℕ := codec.zstd (ids.flatMap (bytesOf rs))

/-- **What a grouping adds to the compressed sizes**: the sizes of the buffers of the layout. -/
theorem sizes_storeWork (codec : Codec) (hw : WellGrouped rs) :
    (storeWork 16 rs).lz4 codec = ((layout rs).map (lz4Size codec rs)).sum ∧
      (storeWork 16 rs).zstd codec = ((layout rs).map (zstdSize codec rs)).sum := by
  -- a buffer is known by its bytes and by whether it is a frame
  have hjobs : ∀ {jobs : List Job} {l : List (List ℕ)},
      jobs.map Job.bytes = l.map (fun ids => ids.flatMap (bytesOf rs)) →
      jobs.map Job.frame = l.map (fun buffer => decide (buffer.length ≠ 1)) →
        jobs.map (Job.lz4 codec) = l.map (lz4Size codec rs) := by
    intro jobs
    induction jobs with
    | nil =>
      intro l hbytes _
      obtain rfl := List.map_eq_nil_iff.1 hbytes.symm
      rfl
    | cons j jobs ih =>
      intro l hbytes hframes
      cases l with
      | nil => simp at hbytes
      | cons ids l =>
        obtain ⟨hb, hbytes⟩ := List.cons.inj hbytes
        obtain ⟨hf, hframes⟩ := List.cons.inj hframes
        rw [List.map_cons, List.map_cons, ih hbytes hframes]
        by_cases h1 : ids.length = 1 <;> simp [Job.lz4, lz4Size, hb, hf, h1]
  constructor
  · unfold Work.lz4
    rw [hjobs (jobs_storeWork hw) (frames_storeWork hw)]
  · have hzstd := congrArg (List.map codec.zstd) (jobs_storeWork hw)
    rw [List.map_map, List.map_map] at hzstd
    exact congrArg List.sum hzstd

/-- The sizes of the deltas, counted once each. -/
theorem sizeOrigin_storeWork (hw : WellGrouped rs) :
    (storeWork 16 rs).sizeOrigin = ((allDeltaIds rs).map fun k => (bytesOf rs k).length).sum := by
  have hgroup : ∀ b, (groupWork 16 (bytesOf rs b) (deltasOf b rs)).sizeOrigin =
      ((deltaIds b rs).map fun k => (bytesOf rs k).length).sum := by
    intro b
    have hlen : (deltasOf b rs).map Chunk.len = ((deltasOf b rs).map Chunk.buf).map List.length := by
      rw [List.map_map]; rfl
    rw [sizeOrigin_groupWork, hlen, map_buf_deltasOf, List.map_map]; rfl
  unfold storeWork
  rw [Work.sizeOrigin_sum, toList_groupsOf hw, List.map_map, List.map_map]
  calc ((baseIds rs).map _).sum
      = ((baseIds rs).map fun b => ((deltaIds b rs).map fun k => (bytesOf rs k).length).sum).sum :=
        congrArg List.sum (List.map_congr_left fun b _ => hgroup b)
    _ = (((baseIds rs).flatMap fun b => deltaIds b rs).map fun k => (bytesOf rs k).length).sum := by
      rw [List.map_flatMap, List.flatMap_def, List.sum_flatten, List.map_map]; rfl
    _ = _ := ((flatMap_deltaIds hw).map _).sum_eq

theorem nodup_flatten_layout (hw : WellGrouped rs) : (layout rs).flatten.Nodup := by
  refine (flatten_layout hw).nodup_iff.2 (List.nodup_append.2
    ⟨nodup_baseIds rs, List.nodup_range.filter _, fun a ha b hb hab => ?_⟩)
  subst hab
  obtain ⟨r, hr, ht⟩ := mem_baseIds.1 ha
  obtain ⟨r', hr', ht'⟩ := mem_allDeltaIds.1 hb
  obtain rfl : r = r' := Option.some.inj (hr.symm.trans hr')
  exact absurd (ht.symm.trans ht') (by decide)

/-- **One grouping compresses every stored chunk once.** LZ4 and zstd get the same buffers, those of
the layout, each filled exactly; every base and every delta chunk is in one of them, once; the
counted origin size is that of the deltas. -/
theorem groupByBase_once (codec : Codec) (t : Totals) {s : Storage} (h : StoreOK s rs)
    (hw : WellGrouped rs) :
    ∃ s', s.groupByBase codec 16 t = some s' ∧
      s'.out.lz4 = s'.out.zstd ∧
      s'.out.lz4.map SrcBuffer.copied = (layout rs).map (fun ids => ids.flatMap (bytesOf rs)) ∧
      (layout rs).flatten.Perm (baseIds rs ++ allDeltaIds rs) ∧ (layout rs).flatten.Nodup ∧
      (∀ buffer ∈ s'.out.lz4,
        buffer.srcSize = buffer.copied.length ∧ buffer.allocated = buffer.copied.length) ∧
      s'.totals.totalSizeOrigin =
        t.totalSizeOrigin + ((allDeltaIds rs).map fun k => (bytesOf rs k).length).sum := by
  refine ⟨_, groupByBase_ok codec (by omega) h hw.lt_length t, rfl, ?_, flatten_layout hw,
    nodup_flatten_layout hw, ?_, ?_⟩
  · rw [← jobs_storeWork hw]
    simp only [GroupState.add, List.nil_append, List.map_map]
    rfl
  · intro buffer hb
    simp only [GroupState.add, List.nil_append, List.mem_map] at hb
    obtain ⟨j, -, rfl⟩ := hb
    exact ⟨rfl, rfl⟩
  · rw [← sizeOrigin_storeWork hw]
    rfl

/-- A base with one delta: one buffer, the base in front. -/
theorem groupByBase_once_pair : ∃ s',
    (((Storage.new 1).writeBaseChunk ⟨[1, 2], 0⟩).writeDeltaChunk ⟨[3], 1⟩ 0).2.groupByBase
        ⟨List.length, List.length, List.length⟩ 16 {} = some s' ∧
      s'.out.lz4 = s'.out.zstd ∧ s'.out.lz4.map SrcBuffer.copied = [[1, 2, 3]] := by
  obtain ⟨h₁, hd₁, -⟩ := writeChunk_ok (storeOK_new 1) BaseChunk 0 ⟨[1, 2], 0⟩ (by decide) (by decide)
  obtain ⟨h₂, -, -⟩ := writeChunk_ok h₁ DeltaChunk 0 ⟨[3], 1⟩ (by decide) (by decide)
  obtain ⟨s', hs', hsame, hcopied, -⟩ := groupByBase_once ⟨List.length, List.length, List.length⟩ {} h₂
    ⟨fun k r hr ht => by
      rcases k with _ | _ | k
      · obtain rfl := Option.some.inj hr; rfl
      · obtain rfl := Option.some.inj hr; exact absurd ht (by decide)
      · simp at hr,
     fun r hr ht => by
      rcases List.mem_append.1 hr with hr | hr
      · rw [List.mem_singleton.1 hr] at ht; exact absurd ht (by decide)
      · rw [List.mem_singleton.1 hr]; exact ⟨_, rfl, rfl⟩⟩
  exact ⟨s', hs', hsame, hcopied.trans (by decide)⟩

end ChunkGrouping
