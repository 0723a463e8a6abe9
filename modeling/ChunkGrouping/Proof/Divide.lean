import ChunkGrouping.Proof.Store

/-!
# The groups of a store

`dividByBase` reads every record once, in order, and returns the map `groupsOf rs`.

* `dividByBase_ok`: it returns, and leaves the store as it was.
* `getElem?_groupsOf`: the group of a base id is the deltas against it, in write order.
* `toList_groupsOf`: in a store whose deltas name base records, one group per base.
-/

namespace ChunkGrouping

open CFile

/-- The chunk `dividByBase` makes of a record. Its id is computed from the offset. -/
def Record.chunk (r : Record) : Chunk := ⟨r.bytes, r.info.offset.toNat / 8192 % 2 ^ 32⟩

/-- What a record adds to the groups. -/
def Groups.addRecord (g : Groups) (r : Record) : Groups :=
  let g := if r.info.type = BaseChunk then g.touch r.info.baseChunkId.toNat else g
  if r.info.type = DeltaChunk then g.pushBack r.info.baseChunkId.toNat r.chunk else g

/-- The groups of a store. -/
def groupsOf (rs : List Record) : Groups := rs.foldl Groups.addRecord ∅

/-- The sizes of the chunks compressed one by one, added to the counters. -/
def Totals.addSingles (codec : Codec) (rs : List Record) (t : Totals) : Totals :=
  { t with
    singleCompressedSize := t.singleCompressedSize + (rs.map fun r => codec.lz4Frame r.bytes).sum
    zstdSingleSizeCompressed := t.zstdSingleSizeCompressed + (rs.map fun r => codec.zstd r.bytes).sum }

/-- Only positions differ. -/
structure SameBytes (s s' : Storage) : Prop where
  metaBytes : s'.metaFile.bytes = s.metaFile.bytes
  dataBytes : s'.dataFile.bytes = s.dataFile.bytes
  cache : s'.cache = s.cache

theorem SameBytes.read {s s' : Storage} (h : SameBytes s s') (len : ℕ) {f : Stream}
    (hf : f.bytes = s'.dataFile.bytes) :
    SameBytes s { s' with metaFile := (fread len s'.metaFile).2, dataFile := f } :=
  ⟨h.metaBytes, hf.trans h.dataBytes, h.cache⟩

/-- **Reading on in `meta_`**: record `k`, and the position is that of the next one. -/
theorem fread_record {f : Stream} {ms : List ChunkMeta} (hf : f.bytes = ms.flatMap ChunkMeta.toBytes) {k : ℕ}
    {m : ChunkMeta} (hpos : f.pos = k * sizeofChunkMeta) (hk : ms[k]? = some m) :
    (fread sizeofChunkMeta f).1 = m.toBytes ∧ (fread sizeofChunkMeta f).2.pos = (k + 1) * sizeofChunkMeta := by
  have hgot : slice f.bytes f.pos sizeofChunkMeta = m.toBytes := by
    rw [hf, hpos, slice_flatMap length_toBytes hk]
  refine ⟨hgot, ?_⟩
  simp only [fread]
  rw [hgot, length_toBytes, hpos, Nat.succ_mul]

/-- Behind the last record nothing is read. -/
theorem fread_end {f : Stream} {ms : List ChunkMeta} (hf : f.bytes = ms.flatMap ChunkMeta.toBytes)
    (hpos : f.pos = ms.length * sizeofChunkMeta) : (fread sizeofChunkMeta f).1 = [] := by
  simp only [fread]
  rw [hf, hpos, slice_flatMap_end length_toBytes]

variable {s : Storage} {rs : List Record}

/-- **The loop of `dividByBase`**, from record `pre.length` on. -/
theorem dividLoop_ok (codec : Codec) (h : StoreOK s rs) (rest : List Record) :
    ∀ (pre : List Record) (fuel : ℕ) (g : Groups) (t : Totals) (s' : Storage), rs = pre ++ rest →
      rest.length < fuel → SameBytes s s' → s'.metaFile.pos = pre.length * sizeofChunkMeta →
      ∃ s'', s'.dividLoop codec fuel g t =
          some (rest.foldl Groups.addRecord g, t.addSingles codec rest, s'') ∧ SameBytes s s'' := by
  induction rest with
  | nil =>
    intro pre fuel g t s' hrs hfuel hsame hpos
    obtain ⟨k, rfl⟩ : ∃ k, fuel = k + 1 := ⟨fuel - 1, by simp at hfuel; omega⟩
    have hread : (fread sizeofChunkMeta s'.metaFile).1 = [] := by
      apply fread_end (hsame.metaBytes.trans h.records.metaBytes)
      rw [hpos, hrs, List.append_nil, List.length_map]
    unfold Storage.dividLoop
    simp only [hread]
    refine ⟨_, rfl, ⟨hsame.metaBytes, hsame.dataBytes, hsame.cache⟩⟩
  | cons r rest ih =>
    intro pre fuel g t s' hrs hfuel hsame hpos
    obtain ⟨k, rfl⟩ : ∃ k, fuel = k + 1 := ⟨fuel - 1, by simp at hfuel; omega⟩
    have hr : r ∈ rs := by rw [hrs]; simp
    obtain ⟨hread, hadv⟩ := fread_record (hsame.metaBytes.trans h.records.metaBytes) hpos
      (show (rs.map Record.info)[pre.length]? = some r.info by simp [hrs])
    have hdata : slice s'.dataFile.bytes r.info.offset.toNat r.info.size.toNat = r.bytes := by
      rw [hsame.dataBytes]; exact h.bytes r hr
    have hlen : r.bytes.length = r.info.size.toNat := h.size r hr
    -- what the rest of the loop does, whatever the position in `data_`
    have hnext : ∀ (g' : Groups) (s'' : Storage), SameBytes s s'' →
        s''.metaFile = (fread sizeofChunkMeta s'.metaFile).2 →
        ∃ s₃, s''.dividLoop codec k g' (t.addSingles codec [r]) =
          some (rest.foldl Groups.addRecord g', t.addSingles codec (r :: rest), s₃) ∧ SameBytes s s₃ := by
      intro g' s'' hs'' hmf
      obtain ⟨s₃, he, hs₃⟩ := ih (pre ++ [r]) k g' (t.addSingles codec [r]) s'' (by simp [hrs])
        (by simp at hfuel; omega) hs'' (by rw [hmf, hadv, List.length_append, List.length_singleton])
      refine ⟨s₃, ?_, hs₃⟩
      rw [he]
      simp only [Totals.addSingles, List.map_cons, List.map_nil, List.sum_cons, List.sum_nil]
      simp only [Nat.add_zero, Nat.add_assoc]
    have hread' : ∀ (id : ℕ) (f : Stream), f.bytes = s'.dataFile.bytes →
        Chunk.fromFileStream r.info.size.toNat id (seekSet r.info.offset.toNat f) =
          some (⟨r.bytes, id⟩, (fread r.info.size.toNat (seekSet r.info.offset.toNat f)).2) := by
      intro id f hf
      rw [fromFileStream_seekSet, hf, hdata, if_pos hlen]
    unfold Storage.dividLoop
    simp only [hread, ofBytes_toBytes, hread' _ s'.dataFile rfl, Option.bind_eq_bind, Option.bind_some]
    rw [List.foldl_cons]
    by_cases hD : r.info.type = DeltaChunk
    · have hadd : g.addRecord r = Groups.pushBack r.info.baseChunkId.toNat r.chunk
          (if r.info.type = BaseChunk then g.touch r.info.baseChunkId.toNat else g) := if_pos hD
      rw [if_pos hD, hread' _ (fread r.info.size.toNat (seekSet r.info.offset.toNat s'.dataFile)).2 rfl,
        hadd]
      simp only [Option.bind_some]
      -- the chunk is read a second time
      exact hnext _ _ (hsame.read _ rfl) rfl
    · have hadd : g.addRecord r =
          (if r.info.type = BaseChunk then g.touch r.info.baseChunkId.toNat else g) := if_neg hD
      rw [if_neg hD, hadd]
      exact hnext _ _ (hsame.read _ rfl) rfl

/-- **`dividByBase`** returns the groups of the store and leaves it as it was. -/
theorem dividByBase_ok (codec : Codec) (h : StoreOK s rs) (t : Totals) :
    s.dividByBase codec t = some (groupsOf rs, t.addSingles codec rs, s) := by
  have hfuel : rs.length < s.metaFile.bytes.length + 1 := by
    rw [h.records.metaBytes, Batching.length_flatMap fun i _ => length_toBytes i, List.length_map]
    unfold sizeofChunkMeta; omega
  obtain ⟨s', he, hs'⟩ := dividLoop_ok codec h rs [] (s.metaFile.bytes.length + 1) ∅ t
    { s with metaFile := seekSet 0 s.metaFile } rfl hfuel ⟨rfl, rfl, rfl⟩ (by simp [seekSet])
  unfold Storage.dividByBase
  simp only [bytes_seekSet, he, Option.bind_eq_bind, Option.bind_some]
  rw [seekEnd_eq h.records.metaEnd hs'.metaBytes, seekEnd_eq h.records.dataEnd hs'.dataBytes,
    hs'.cache]
  rfl

/-- The record names the group `b`. -/
def Record.InGroup (b : ℕ) (r : Record) : Prop :=
  (r.info.type = BaseChunk ∨ r.info.type = DeltaChunk) ∧ r.info.baseChunkId.toNat = b

instance (b : ℕ) (r : Record) : Decidable (r.InGroup b) := by unfold Record.InGroup; infer_instance

/-- The delta chunks against `b`, in write order. -/
def deltasOf (b : ℕ) (rs : List Record) : List Chunk :=
  (rs.filter fun r => r.info.type = DeltaChunk ∧ r.info.baseChunkId.toNat = b).map Record.chunk

theorem deltasOf_eq_nil {rs : List Record} (h : ∀ r ∈ rs, r.info.type ≠ DeltaChunk) (b : ℕ) : deltasOf b rs = [] := by
  unfold deltasOf
  rw [List.map_eq_nil_iff, List.filter_eq_nil_iff]
  intro r hr hd
  exact h r hr (of_decide_eq_true hd).1

theorem getElem?_addRecord (g : Groups) (r : Record) (b : ℕ) :
    (g.addRecord r)[b]? =
      if r.InGroup b then some (g[b]?.getD [] ++ deltasOf b [r]) else g[b]? := by
  have hbd : BaseChunk ≠ DeltaChunk := by decide
  unfold Groups.addRecord Record.InGroup deltasOf
  by_cases hB : r.info.type = BaseChunk
  · have hD : r.info.type ≠ DeltaChunk := fun h => hbd (hB.symm.trans h)
    by_cases hb : r.info.baseChunkId.toNat = b
    · subst hb; simp [hB, hbd, Groups.touch]
    · simp [hB, hbd, hb, Groups.touch, Std.TreeMap.getElem?_alter]
  · by_cases hD : r.info.type = DeltaChunk
    · simp only [hD, hbd.symm, if_false, if_true, Groups.pushBack, Std.TreeMap.getElem?_alter]
      by_cases hb : r.info.baseChunkId.toNat = b <;> simp [hD, hb]
    · simp [hB, hD]

/-- **The group of `b`** is there when some record names it, and holds the deltas against `b` in
write order. -/
theorem getElem?_groupsOf (rs : List Record) (b : ℕ) :
    (groupsOf rs)[b]? = if ∃ r ∈ rs, r.InGroup b then some (deltasOf b rs) else none := by
  induction rs using List.reverseRecOn with
  | nil => simp [groupsOf]
  | append_singleton rs r ih =>
    have hsnoc : groupsOf (rs ++ [r]) = (groupsOf rs).addRecord r := by simp [groupsOf]
    have hdel : deltasOf b (rs ++ [r]) = deltasOf b rs ++ deltasOf b [r] := by simp [deltasOf]
    rw [hsnoc, getElem?_addRecord, ih, hdel]
    by_cases hr : r.InGroup b
    · rw [if_pos hr, if_pos (⟨r, by simp, hr⟩ : ∃ x ∈ rs ++ [r], x.InGroup b)]
      by_cases hex : ∃ x ∈ rs, x.InGroup b
      · rw [if_pos hex]; rfl
      · rw [if_neg hex]
        have hnil : deltasOf b rs = [] := by
          unfold deltasOf
          rw [List.map_eq_nil_iff, List.filter_eq_nil_iff]
          intro x hx hxd
          exact hex ⟨x, hx, .inr (of_decide_eq_true hxd).1, (of_decide_eq_true hxd).2⟩
        rw [hnil]; rfl
    · have hnil : deltasOf b [r] = [] := by
        unfold deltasOf
        rw [List.map_eq_nil_iff, List.filter_eq_nil_iff]
        intro x hx hxd
        rw [List.mem_singleton.1 hx] at hxd
        exact hr ⟨.inr (of_decide_eq_true hxd).1, (of_decide_eq_true hxd).2⟩
      rw [if_neg hr, hnil, List.append_nil]
      congr 1
      simp [or_and_right, exists_or, hr]

theorem mem_groupsOf {b : ℕ} {ds : List Chunk} (hm : (b, ds) ∈ (groupsOf rs).toList) :
    (∃ r ∈ rs, r.InGroup b) ∧ ds = deltasOf b rs := by
  rw [Std.TreeMap.mem_toList_iff_getElem?_eq_some, getElem?_groupsOf] at hm
  split at hm
  · exact ⟨‹_›, (Option.some.inj hm).symm⟩
  · simp at hm

/-- Record `k` is chunk `k`: a base names itself, a delta names a base. -/
structure WellGrouped (rs : List Record) : Prop where
  base : ∀ (k : ℕ) (r : Record), rs[k]? = some r → r.info.type = BaseChunk → r.info.baseChunkId.toNat = k
  delta : ∀ r ∈ rs, r.info.type = DeltaChunk →
    ∃ r', rs[r.info.baseChunkId.toNat]? = some r' ∧ r'.info.type = BaseChunk

/-- The ids of the base records, ascending. -/
def baseIds (rs : List Record) : List ℕ :=
  (List.range rs.length).filter fun k => (rs[k]?.map fun r => r.info.type) = some BaseChunk

theorem mem_baseIds {rs : List Record} {b : ℕ} :
    b ∈ baseIds rs ↔ ∃ r, rs[b]? = some r ∧ r.info.type = BaseChunk := by
  unfold baseIds
  rw [List.mem_filter, List.mem_range]
  constructor
  · rintro ⟨-, h⟩
    simpa using h
  · rintro ⟨r, hr, ht⟩
    exact ⟨(List.getElem?_eq_some_iff.1 hr).1, by simp [hr, ht]⟩

theorem inGroup_iff (hw : WellGrouped rs) (b : ℕ) : (∃ r ∈ rs, r.InGroup b) ↔ b ∈ baseIds rs := by
  rw [mem_baseIds]
  constructor
  · rintro ⟨r, hr, ht | ht, rfl⟩
    · obtain ⟨k, hk⟩ := List.mem_iff_getElem?.1 hr
      rw [hw.base k r hk ht]
      exact ⟨r, hk, ht⟩
    · exact hw.delta r hr ht
  · rintro ⟨r, hr, ht⟩
    exact ⟨r, List.mem_of_getElem? hr, .inl ht, hw.base b r hr ht⟩

/-- **One group per base record**, in ascending order. -/
theorem toList_groupsOf (hw : WellGrouped rs) :
    (groupsOf rs).toList = (baseIds rs).map fun b => (b, deltasOf b rs) := by
  have hsorted : (groupsOf rs).toList.Pairwise fun x y => x.1 < y.1 := by
    refine Std.TreeMap.ordered_keys_toList.imp fun h => ?_
    exact Nat.compare_eq_lt.1 h
  have hsorted' : ((baseIds rs).map fun b => (b, deltasOf b rs)).Pairwise fun x y => x.1 < y.1 := by
    rw [List.pairwise_map]
    exact List.pairwise_lt_range.filter _
  have hirr : ∀ x y : ℕ × List Chunk, x.1 < y.1 → x ≠ y := fun x y h he => by subst he; omega
  refine List.Perm.eq_of_pairwise (fun x y _ _ hx hy => by omega) hsorted hsorted' ?_
  refine (List.perm_ext_iff_of_nodup (hsorted.imp fun h => hirr _ _ h)
    (hsorted'.imp fun h => hirr _ _ h)).2 fun x => ?_
  obtain ⟨b, ds⟩ := x
  rw [Std.TreeMap.mem_toList_iff_getElem?_eq_some, getElem?_groupsOf, List.mem_map]
  simp only [inGroup_iff hw b, Prod.mk.injEq]
  constructor
  · intro h
    split at h
    · exact ⟨b, ‹_›, rfl, Option.some.inj h⟩
    · simp at h
  · rintro ⟨b', hb', rfl, rfl⟩
    rw [if_pos hb']

end ChunkGrouping
