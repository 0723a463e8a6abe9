import ChunkGrouping.Lib.Batches
import ChunkGrouping.Proof.Divide

/-!
# What a grouping compresses

A group is a list of compressed buffers and some counting: its `Work`. The works of
the groups add up.

* `compressBatch_ok`, `batchLoop_ok`, `compressGroup_ok`: what a batch, the batches of
  a group, a whole group do to the state of `groupByBase`.
* `groupByBase_ok`: the whole call does the sum of the works of its groups, and
  leaves the store as it was.
-/

namespace ChunkGrouping

open CFile Batching

/-- A compressed buffer: its bytes, and whether LZ4 was called to make a frame. -/
structure Job where
  frame : Bool
  bytes : List UInt8
deriving DecidableEq, Repr

/-- The size LZ4 returns. -/
def Job.lz4 (codec : Codec) (j : Job) : ℕ :=
  if j.frame then codec.lz4Frame j.bytes else codec.lz4Default j.bytes

/-- A buffer that was filled exactly. -/
def SrcBuffer.full (bytes : List UInt8) : SrcBuffer :=
  { srcSize := bytes.length, allocated := bytes.length, copied := bytes }

/-- What is done for a group. -/
structure Work where
  sizeOrigin : ℕ
  groupingNum : ℕ
  groupingBlocks : ℕ
  jobs : List Job
deriving DecidableEq, Repr

namespace Work

/-- One work, then another. -/
protected def add (v w : Work) : Work where
  sizeOrigin := v.sizeOrigin + w.sizeOrigin
  groupingNum := v.groupingNum + w.groupingNum
  groupingBlocks := v.groupingBlocks + w.groupingBlocks
  jobs := v.jobs ++ w.jobs

instance : Add Work := ⟨Work.add⟩

instance : Zero Work := ⟨⟨0, 0, 0, []⟩⟩

/-- Works add up. -/
instance : AddMonoid Work where
  add_assoc u v w := by
    refine Work.mk.injEq .. |>.mpr ⟨?_, ?_, ?_, ?_⟩
    · exact Nat.add_assoc ..
    · exact Nat.add_assoc ..
    · exact Nat.add_assoc ..
    · exact List.append_assoc ..
  zero_add w := by
    refine Work.mk.injEq .. |>.mpr ⟨?_, ?_, ?_, ?_⟩
    · exact Nat.zero_add _
    · exact Nat.zero_add _
    · exact Nat.zero_add _
    · exact List.nil_append _
  add_zero w := by
    refine Work.mk.injEq .. |>.mpr ⟨?_, ?_, ?_, ?_⟩
    · exact Nat.add_zero _
    · exact Nat.add_zero _
    · exact Nat.add_zero _
    · exact List.append_nil _
  nsmul := nsmulRec

/-- The LZ4 and the zstd size of what is compressed. -/
def lz4 (codec : Codec) (w : Work) : ℕ := (w.jobs.map (Job.lz4 codec)).sum

/-- The zstd size of what is compressed. -/
def zstd (codec : Codec) (w : Work) : ℕ := (w.jobs.map fun j => codec.zstd j.bytes).sum

@[simp] theorem jobs_zero : (0 : Work).jobs = [] := rfl

@[simp] theorem sizeOrigin_zero : (0 : Work).sizeOrigin = 0 := rfl

@[simp] theorem sizeOrigin_add (v w : Work) : (v + w).sizeOrigin = v.sizeOrigin + w.sizeOrigin := rfl

@[simp] theorem jobs_add (v w : Work) : (v + w).jobs = v.jobs ++ w.jobs := rfl

theorem lz4_add (codec : Codec) (v w : Work) : (v + w).lz4 codec = v.lz4 codec + w.lz4 codec := by
  simp [lz4]

theorem zstd_add (codec : Codec) (v w : Work) : (v + w).zstd codec = v.zstd codec + w.zstd codec := by
  simp [zstd]

theorem jobs_sum (ws : List Work) : ws.sum.jobs = ws.flatMap Work.jobs := by
  induction ws with
  | nil => rfl
  | cons w ws ih => rw [List.sum_cons, jobs_add, ih, List.flatMap_cons]

theorem sizeOrigin_sum (ws : List Work) : ws.sum.sizeOrigin = (ws.map Work.sizeOrigin).sum := by
  induction ws with
  | nil => rfl
  | cons w ws ih => rw [List.sum_cons, sizeOrigin_add, ih, List.map_cons, List.sum_cons]

end Work

/-- The counters after the work `w`. -/
def Totals.add (codec : Codec) (w : Work) (t : Totals) : Totals :=
  { t with
    totalSizeOrigin := t.totalSizeOrigin + w.sizeOrigin
    totalSizeCompressed := t.totalSizeCompressed + w.lz4 codec
    groupingNum := t.groupingNum + w.groupingNum
    groupingBlocks := t.groupingBlocks + w.groupingBlocks
    zstdTotalSizeCompressed := t.zstdTotalSizeCompressed + w.zstd codec }

/-- The bytes of record `k`. -/
def bytesOf (rs : List Record) (k : ℕ) : List UInt8 := (rs[k]?.map Record.bytes).getD []

namespace GroupState

/-- The state after the work `w`. -/
def add (codec : Codec) (w : Work) (s : GroupState) : GroupState where
  storage := s.storage
  totals := s.totals.add codec w
  out := {
    lz4 := s.out.lz4 ++ w.jobs.map fun j => .full j.bytes
    zstd := s.out.zstd ++ w.jobs.map fun j => .full j.bytes }

@[simp] theorem storage_add (codec : Codec) (w : Work) (s : GroupState) :
    (s.add codec w).storage = s.storage := rfl

theorem add_nothing (codec : Codec) (s : GroupState) : s.add codec 0 = s := by
  cases s with
  | mk storage totals out =>
    simp only [add, Totals.add, Work.lz4, Work.zstd, Work.jobs_zero, Work.sizeOrigin_zero,
      show (0 : Work).groupingNum = 0 from rfl, show (0 : Work).groupingBlocks = 0 from rfl,
      List.map_nil, List.sum_nil, Nat.add_zero, List.append_nil]

theorem add_add (codec : Codec) (v w : Work) (s : GroupState) :
    (s.add codec v).add codec w = s.add codec (v + w) := by
  simp only [add, Totals.add, Work.lz4_add, Work.zstd_add, Work.jobs_add, Work.sizeOrigin_add,
    show (v + w).groupingNum = v.groupingNum + w.groupingNum from rfl,
    show (v + w).groupingBlocks = v.groupingBlocks + w.groupingBlocks from rfl,
    List.map_append, List.append_assoc, Nat.add_assoc]

/-! ## Buffers -/

/-- A buffer with room for `bytes` at least. -/
theorem memcpy_ok {b : SrcBuffer} {bytes : List UInt8}
    (h : b.copied.length + bytes.length ≤ b.allocated) :
    b.memcpy bytes = some { b with copied := b.copied ++ bytes } := if_pos h

theorem alloc_memcpy (bytes : List UInt8) :
    (SrcBuffer.alloc bytes.length).memcpy bytes = some (.full bytes) := by
  rw [memcpy_ok (by simp [SrcBuffer.alloc])]; rfl

/-- **The copy loop** fits in a buffer that has room for all chunks. -/
theorem copyAll_ok (chunks : List Chunk) : ∀ b : SrcBuffer,
    b.copied.length + (chunks.map Chunk.len).sum ≤ b.allocated →
    copyAll chunks b = some { b with copied := b.copied ++ (chunks.map Chunk.buf).flatten } := by
  induction chunks with
  | nil => intro b _; simp [copyAll]
  | cons c cs ih =>
    intro b hb
    rw [List.map_cons, List.sum_cons] at hb
    unfold Chunk.len at hb
    rw [copyAll, memcpy_ok (by omega), Option.bind_eq_bind, Option.bind_some, ih]
    · simp
    · simp only [List.length_append]; unfold Chunk.len; omega

theorem sum_len (chunks : List Chunk) :
    (chunks.map Chunk.len).sum = (chunks.map Chunk.buf).flatten.length := by
  rw [List.length_flatten, List.map_map]; rfl

/-- One compressed buffer. -/
def job (frame : Bool) (bytes : List UInt8) : Work := ⟨0, 0, 0, [⟨frame, bytes⟩]⟩

/-- **Compressing a full buffer** with both compressors. -/
theorem compress_full (codec : Codec) (frame : Bool) (bytes : List UInt8) (s : GroupState) :
    (do
      let s ← s.compressLz4 (if frame then codec.lz4Frame else codec.lz4Default) (.full bytes)
      s.compressZstd codec (.full bytes)) = some (s.add codec (job frame bytes)) := by
  cases frame <;>
    simp [compressLz4, compressZstd, SrcBuffer.src, SrcBuffer.full, add, Totals.add, job, Work.lz4,
      Work.zstd, Job.lz4]

/-! ## Groups -/

variable {s : GroupState} {rs : List Record} {b : ℕ} {r : Record}

theorem getChunkContent_ok (h : StoreOK s.storage rs) (hb : rs[b]? = some r) :
    s.getChunkContent b = some (⟨r.bytes, b⟩, s) := by
  simp [getChunkContent, ChunkGrouping.getChunkContent_ok h hb]

theorem compressBase_ok (codec : Codec) (h : StoreOK s.storage rs) (hb : rs[b]? = some r) :
    s.compressBase codec b = some (s.add codec (job false r.bytes)) := by
  unfold compressBase
  rw [getChunkContent_ok h hb]
  simp only [Option.bind_eq_bind, Option.bind_some, Chunk.len, alloc_memcpy]
  exact compress_full codec false r.bytes s

/-- The work of a batch: a short one has the base chunk in front. -/
def batchWork (base : List UInt8) (batch : List Chunk) : Work where
  sizeOrigin := (batch.map Chunk.len).sum
  groupingNum := 0
  groupingBlocks := 0
  jobs := [⟨true, (if batch.length < 16 then base else []) ++ (batch.map Chunk.buf).flatten⟩]

/-- **A batch.** -/
theorem compressBatch_ok (codec : Codec) (h : StoreOK s.storage rs) (hb : rs[b]? = some r)
    (batch : List Chunk) :
    s.compressBatch codec b batch = some (s.add codec (batchWork r.bytes batch)) := by
  set total := (batch.map Chunk.len).sum with htotal
  set s₁ : GroupState :=
    { s with totals := { s.totals with totalSizeOrigin := s.totals.totalSizeOrigin + total } } with hs₁
  have hend : ∀ bytes, (s₁.add codec (job true bytes)) =
      s.add codec ⟨total, 0, 0, [⟨true, bytes⟩]⟩ := by
    intro bytes
    simp [hs₁, add, Totals.add, job, Work.lz4, Work.zstd, Job.lz4]
  have hcopy : ∀ base : List UInt8, copyAll batch
      { srcSize := total + base.length, allocated := total + base.length, copied := base } =
        some (.full (base ++ (batch.map Chunk.buf).flatten)) := by
    intro base
    rw [copyAll_ok _ _ (by simp only [← htotal]; omega)]
    simp [SrcBuffer.full, htotal, sum_len, Nat.add_comm]
  unfold compressBatch batchWork
  simp only [← htotal, ← hs₁]
  by_cases hshort : batch.length < 16
  · rw [if_pos hshort, if_pos hshort, getChunkContent_ok (s := s₁) h hb]
    simp only [Option.bind_eq_bind, Option.bind_some, Chunk.len]
    rw [memcpy_ok (by simp [SrcBuffer.alloc])]
    simp only [Option.bind_some, SrcBuffer.alloc, List.nil_append, hcopy]
    rw [← hend]
    exact compress_full codec true _ s₁
  · rw [if_neg hshort, if_neg hshort]
    have h0 := hcopy []
    simp only [List.length_nil, Nat.add_zero] at h0
    simp only [Option.bind_eq_bind, Option.bind_some, SrcBuffer.alloc, h0]
    rw [← hend]
    exact compress_full codec true _ s₁

/-- **The batch loop**, from delta `i` on. -/
theorem batchLoop_ok (codec : Codec) {groupSize : ℕ} (hg : 0 < groupSize) (hb : rs[b]? = some r)
    (ds : List Chunk) : ∀ (fuel i : ℕ) (s : GroupState), StoreOK s.storage rs → ds.length ≤ i + fuel →
      s.batchLoop codec groupSize b ds fuel i =
        some (s.add codec ((batches groupSize (ds.drop i)).map (batchWork r.bytes)).sum) := by
  intro fuel
  induction fuel with
  | zero =>
    intro i s h hi
    rw [batchLoop, if_neg (by omega), List.drop_eq_nil_of_le (by omega), batches_nil]
    exact congrArg some (add_nothing codec s).symm
  | succ fuel ih =>
    intro i s h hi
    by_cases hlt : i < ds.length
    · have hne : ds.drop i ≠ [] := by
        rw [ne_eq, List.drop_eq_nil_iff]; omega
      have htake : (ds.drop i).take (min (i + groupSize) ds.length - i) = (ds.drop i).take groupSize := by
        rcases Nat.le_total (i + groupSize) ds.length with hle | hle
        · rw [min_eq_left hle, Nat.add_sub_cancel_left]
        · rw [min_eq_right hle, List.take_of_length_le (by rw [List.length_drop]),
            List.take_of_length_le (by rw [List.length_drop]; omega)]
      rw [batchLoop, if_pos hlt]
      simp only [htake, compressBatch_ok codec h hb, Option.bind_eq_bind, Option.bind_some]
      rw [ih (i + groupSize) (s.add codec _) h (by omega), add_add, batches_cons hg hne, List.drop_drop,
        List.map_cons, List.sum_cons]
    · rw [batchLoop, if_neg hlt, List.drop_eq_nil_of_le (by omega), batches_nil]
      exact congrArg some (add_nothing codec s).symm

/-- The counting of a group. -/
def countWork (ds : List Chunk) : Work :=
  if 1 < ds.length then ⟨0, 1, ds.length, []⟩ else 0

/-- The base chunk alone, when no batch is short. -/
def baseWork (base : List UInt8) (ds : List Chunk) : Work :=
  if ds.length % 16 = 0 then job false base else 0

/-- **The work of a group.** -/
def groupWork (groupSize : ℕ) (base : List UInt8) (ds : List Chunk) : Work :=
  countWork ds + (((batches groupSize ds).map (batchWork base)).sum + baseWork base ds)

/-- **A group.** -/
theorem compressGroup_ok (codec : Codec) {groupSize : ℕ} {ds : List Chunk} (hg : 0 < groupSize ∨ ds = [])
    (h : StoreOK s.storage rs) (hb : rs[b]? = some r) :
    s.compressGroup codec groupSize b ds = some (s.add codec (groupWork groupSize r.bytes ds)) := by
  unfold compressGroup
  rw [getChunkContent_ok h hb]
  simp only [Option.bind_eq_bind, Option.bind_some]
  cases ds with
  | nil =>
    rw [List.isEmpty_nil, if_pos rfl, compressBase_ok codec h hb]
    simp only [groupWork, countWork, baseWork, batches_nil]
    rfl
  | cons d ds =>
    set es := d :: ds with hes
    have hcount : (if 1 < es.length then
        { s with totals := { s.totals with
          groupingNum := s.totals.groupingNum + 1
          groupingBlocks := s.totals.groupingBlocks + es.length } } else s) =
        s.add codec (countWork es) := by
      unfold countWork
      split
      · simp [add, Totals.add, Work.lz4, Work.zstd]
      · exact (add_nothing codec s).symm
    rw [if_neg (by simp [hes]), hcount]
    have hpos : 0 < groupSize := hg.resolve_right (List.cons_ne_nil d ds)
    have hloop := batchLoop_ok codec hpos hb es es.length 0 (s.add codec (countWork es)) h (by omega)
    rw [hloop, List.drop_zero, add_add, Option.bind_some]
    unfold groupWork baseWork
    split
    · rw [compressBase_ok (s := s.add codec _) codec h hb, add_add, add_assoc]
    · rw [add_zero]

/-- **The loop over the groups.** -/
theorem groupLoop_ok (codec : Codec) {groupSize : ℕ} (groups : List (ℕ × List Chunk)) : ∀ s : GroupState,
    StoreOK s.storage rs → (∀ x ∈ groups, x.1 < rs.length) → (∀ x ∈ groups, 0 < groupSize ∨ x.2 = []) →
      groupLoop codec groupSize groups s =
        some (s.add codec (groups.map fun x => groupWork groupSize (bytesOf rs x.1) x.2).sum) := by
  induction groups with
  | nil => intro s _ _ _; exact congrArg some (add_nothing codec s).symm
  | cons x groups ih =>
    intro s h hin hg
    obtain ⟨b, ds⟩ := x
    have hlt : b < rs.length := hin _ List.mem_cons_self
    have hb : rs[b]? = some rs[b] := List.getElem?_eq_getElem hlt
    have hbytes : bytesOf rs b = rs[b].bytes := by simp [bytesOf, hb]
    have hrest := ih (s.add codec (groupWork groupSize rs[b].bytes ds)) h
      (fun x hx => hin x (List.mem_cons_of_mem _ hx)) fun x hx => hg x (List.mem_cons_of_mem _ hx)
    rw [groupLoop, compressGroup_ok codec (hg _ List.mem_cons_self) h hb, Option.bind_eq_bind, Option.bind_some,
      hrest, add_add, List.map_cons, List.sum_cons, hbytes]

end GroupState

/-- The work of grouping a store. -/
def storeWork (groupSize : ℕ) (rs : List Record) : Work :=
  ((groupsOf rs).toList.map fun x => GroupState.groupWork groupSize (bytesOf rs x.1) x.2).sum

/-- **`groupByBase`** returns, with the work of all groups done and the store as it was. Without deltas it does
so for a `group_size` of 0 too: no batch is cut. -/
theorem groupByBase_of (codec : Codec) {groupSize : ℕ} {s : Storage} {rs : List Record} (h : StoreOK s rs)
    (hg : 0 < groupSize ∨ ∀ r ∈ rs, r.info.type ≠ DeltaChunk)
    (hin : ∀ b, ∀ r ∈ rs, r.InGroup b → b < rs.length) (t : Totals) :
    s.groupByBase codec groupSize t =
      some (GroupState.add codec (storeWork groupSize rs) ⟨s, t.addSingles codec rs, {}⟩) := by
  unfold Storage.groupByBase
  rw [dividByBase_ok codec h t]
  simp only [Option.bind_eq_bind, Option.bind_some]
  refine GroupState.groupLoop_ok codec _ ⟨s, t.addSingles codec rs, {}⟩ h (fun x hx => ?_) fun x hx => ?_
  · obtain ⟨⟨r, hr, hrb⟩, -⟩ := mem_groupsOf hx
    exact hin _ r hr hrb
  · refine hg.imp_right fun hbase => ?_
    obtain ⟨-, hds⟩ := mem_groupsOf hx
    rw [hds, deltasOf_eq_nil hbase]

theorem groupByBase_ok (codec : Codec) {groupSize : ℕ} (hg : 0 < groupSize) {s : Storage}
    {rs : List Record} (h : StoreOK s rs) (hin : ∀ b, ∀ r ∈ rs, r.InGroup b → b < rs.length)
    (t : Totals) :
    s.groupByBase codec groupSize t =
      some (GroupState.add codec (storeWork groupSize rs) ⟨s, t.addSingles codec rs, {}⟩) :=
  groupByBase_of codec h (.inl hg) hin t

end ChunkGrouping
