import ChunkGrouping.Proof.References

/-!
# The ids of the grouped chunks

`dividByBase` gives a chunk the id `offset / 8192`. It is the chunk's own exactly when
the bytes before it fill its number of blocks of 8192, the last one in part.

* `deltasOf_eq`: the chunks of a group, by the positions of their records.
* `ownIds_iff`: when all of them carry their own ids.
* `grouped_ids_iff`: for the store after any run of `AddFile`.
-/

namespace ChunkGrouping

variable {s : Storage} {rs : List Record} {ι φ : Type}

/-- The chunk `dividByBase` makes of record `k`. -/
def chunkAt (rs : List Record) (k : ℕ) : Chunk := (rs[k]?.map Record.chunk).getD ⟨[], 0⟩

theorem chunkAt_eq {k : ℕ} {r : Record} (hr : rs[k]? = some r) : chunkAt rs k = r.chunk := by
  unfold chunkAt
  rw [hr]
  rfl

/-- The chunks against `b`, by position. -/
theorem deltasOf_eq (b : ℕ) (rs : List Record) : deltasOf b rs = (deltaIds b rs).map (chunkAt rs) := by
  unfold deltasOf deltaIds
  exact filter_map_positions _ _ _ rs

/-- **Every grouped chunk carries its own id**: that of its record, by which it reads, and no other
chunk has it. -/
structure OwnIds (s : Storage) (rs : List Record) (g : Groups) : Prop where
  ids : ∀ (b : ℕ) (ds : List Chunk), g[b]? = some ds → ds.map Chunk.id = deltaIds b rs
  content : ∀ (b : ℕ) (ds : List Chunk), g[b]? = some ds → ∀ c ∈ ds, s.getChunkContent c.id = some (c, s)
  distinct : (g.toList.flatMap fun e => e.2.map Chunk.id).Nodup

/-- The ids `dividByBase` computes are the positions. -/
def IdsFit (rs : List Record) : Prop :=
  ∀ (k : ℕ) (r : Record), rs[k]? = some r → r.info.type = DeltaChunk → r.info.offset.toNat / 8192 % 2 ^ 32 = k

theorem IdsFit.id_chunkAt (h : IdsFit rs) {b k : ℕ} (hk : k ∈ deltaIds b rs) : (chunkAt rs k).id = k := by
  obtain ⟨r, hr, ht, -⟩ := mem_deltaIds.1 hk
  rw [chunkAt_eq hr]
  exact h k r hr ht

theorem IdsFit.map_id (h : IdsFit rs) (b : ℕ) : (deltasOf b rs).map Chunk.id = deltaIds b rs := by
  rw [deltasOf_eq, List.map_map]
  exact (List.map_congr_left fun k hk => h.id_chunkAt hk).trans (List.map_id _)

/-- **Exactly when the ids fit** every grouped chunk carries its own. -/
theorem ownIds_iff (hs : StoreOK s rs) : OwnIds s rs (groupsOf rs) ↔ IdsFit rs := by
  have hgroup : ∀ {b : ℕ} {ds : List Chunk}, (groupsOf rs)[b]? = some ds → ds = deltasOf b rs := by
    intro b ds hds
    rw [getElem?_groupsOf] at hds
    split at hds
    · exact (Option.some.inj hds).symm
    · simp at hds
  constructor
  · intro h k r hr ht
    -- delta `k` is in the group of its base, where it carries its own id
    set b := r.info.baseChunkId.toNat with hb
    have hk : k ∈ deltaIds b rs := mem_deltaIds.2 ⟨r, hr, ht, hb.symm⟩
    have hg : (groupsOf rs)[b]? = some (deltasOf b rs) := by
      rw [getElem?_groupsOf, if_pos ⟨r, List.mem_of_getElem? hr, .inr ht, hb.symm⟩]
    have hids := (h.ids _ _ hg).trans (List.map_id _).symm
    rw [deltasOf_eq, List.map_map] at hids
    have hself := List.map_inj_left.1 hids k hk
    rwa [Function.comp_apply, chunkAt_eq hr] at hself
  · intro h
    refine ⟨fun b ds hds => ?_, fun b ds hds c hc => ?_, ?_⟩
    · rw [hgroup hds]
      exact h.map_id b
    · rw [hgroup hds, deltasOf_eq] at hc
      obtain ⟨k, hk, rfl⟩ := List.mem_map.1 hc
      obtain ⟨r, hr, -, -⟩ := mem_deltaIds.1 hk
      rw [h.id_chunkAt hk, getChunkContent_ok hs hr, chunkAt_eq hr]
      refine congrArg (fun c => some (c, s)) (Chunk.mk.injEq .. |>.mpr ⟨rfl, ?_⟩)
      have := h.id_chunkAt hk
      rwa [chunkAt_eq hr, eq_comm] at this
    · -- a position is in the group its record names, and in no other
      have hmap : (groupsOf rs).toList.flatMap (fun e => e.2.map Chunk.id) =
          (groupsOf rs).toList.flatMap fun e => deltaIds e.1 rs := by
        refine List.flatMap_congr fun e he => ?_
        rw [(mem_groupsOf he).2]
        exact h.map_id e.1
      rw [hmap, List.nodup_flatMap]
      refine ⟨fun e _ => List.nodup_range.filter _, ?_⟩
      refine (Std.TreeMap.distinct_keys_toList (t := groupsOf rs)).imp fun hne => ?_
      intro k hk hk'
      obtain ⟨r, hr, -, hb⟩ := mem_deltaIds.1 hk
      obtain ⟨r', hr', -, hb'⟩ := mem_deltaIds.1 hk'
      obtain rfl := Option.some.inj (hr.symm.trans hr')
      exact hne (compare_eq_iff_eq.2 (hb.symm.trans hb'))

/-! ## Runs -/

/-- The ids of a log of chunks. -/
theorem idsFit_log {ws : List Written} {cs : List Chunk} (hws : ws.map Written.bytes = cs.map Chunk.buf)
    (hbytes : (cs.map Chunk.len).sum < 2 ^ 64) :
    IdsFit (recordsFrom 0 ws) ↔ ∀ (k : ℕ) (w : Written), ws[k]? = some w → w.type = DeltaChunk →
      ((cs.take k).map Chunk.len).sum / 8192 % 2 ^ 32 = k := by
  have hlen : ∀ k, (logBytes (ws.take k)).length = ((cs.take k).map Chunk.len).sum := by
    intro k
    have h := congrArg (fun l => ((l.take k).map List.length).sum) hws
    simp only [← List.map_take, List.map_map] at h
    rw [logBytes, List.length_flatMap]
    exact h
  have hlt : ∀ k, (logBytes (ws.take k)).length < 2 ^ 64 := by
    intro k
    rw [hlen]
    refine lt_of_le_of_lt ?_ hbytes
    rw [List.map_take]
    exact (List.take_sublist k _).sum_le_sum fun _ _ => Nat.zero_le _
  have hoff : ∀ {k : ℕ} {w : Written}, (recordAt (logBytes (ws.take k)).length w.type w.baseChunkId
      w.bytes).info.offset.toNat = ((cs.take k).map Chunk.len).sum := by
    intro k w
    rw [← hlen]
    exact UInt64.toNat_ofNat_of_lt' (hlt k)
  constructor
  · intro h k w hk ht
    have := h k _ (record_log hk) ht
    rwa [hoff] at this
  · intro h k r hr ht
    rw [getElem?_recordsFrom, Option.map_eq_some_iff] at hr
    obtain ⟨w, hw, rfl⟩ := hr
    rw [Nat.zero_add, hoff]
    exact h k w hw ht

variable [Index ι φ] [LawfulIndex ι φ]

/-- What the files are to a new store, whatever the chunk sizes. -/
theorem filesFit_of_drained {min max : ℕ} (hmm : min ≤ max) (hmax : max ≤ 65535) (mask : UInt64)
    {files : List FileContent} (hbytes : (files.map fun f => (f.getD []).length).sum < 2 ^ 64)
    {css : List (List Chunk)} {k : FastCDC} (hd : drainFiles files (FastCDC.new min max mask) = some (css, k)) :
    FilesFit [] files (FastCDC.new min max mask) css := by
  rcases Nat.eq_zero_or_pos max with rfl | hpos
  · obtain rfl := Nat.le_zero.1 hmm
    have hnil := drainFiles_max_zero (FastOK.new 0 0 mask) rfl hd
    exact ⟨⟨k, hd⟩, rfl, by simp [hnil], by simp [hnil, logBytes]⟩
  · obtain ⟨css', k', hd', hok, hfit⟩ := filesFit_new hpos hmm (by omega) mask hbytes
    obtain ⟨rfl, -⟩ := Prod.mk.inj (Option.some.inj (hd'.symm.trans hd))
    exact hfit fun c hc => (len_le_of_fastFileOK hok c hc).trans hmax

/-- **Exactly when every delta record `k` has between `8192 * k` and `8192 * (k + 1)` bytes before it**
do the grouped chunks carry their own ids, after any run of `AddFile` calls. Unless the maximal size is 0
every sequence of files is drained. -/
theorem grouped_ids_iff (p : FeatureIndex ι φ) {min max : ℕ} (hmm : min ≤ max) (hmax : max ≤ 65535)
    (mask : UInt64) (codec : Codec) (cacheSize : ℕ) (files : List (String × FileContent))
    (hbytes : (files.map fun f => (f.2.getD []).length).sum < 2 ^ 64) :
    (1 ≤ max → (drainFiles (files.map Prod.snd) (FastCDC.new min max mask)).isSome) ∧
      ∀ css k, drainFiles (files.map Prod.snd) (FastCDC.new min max mask) = some (css, k) →
        (2 ^ 20 ≤ (ChunkCache.new cacheSize).maxMemoryUsage →
          ((DeltaCompression.new (FastCDC.new min max mask) p.index cacheSize).addFiles codec p.feature
            files).isSome) ∧
        ∀ d, (DeltaCompression.new (FastCDC.new min max mask) p.index cacheSize).addFiles codec p.feature
            files = some d →
          ∃ ws, StoreLog d.storage ws ∧ ws.map Written.bytes = css.flatten.map Chunk.buf ∧
            ∀ t, ∃ g t', d.storage.dividByBase codec t = some (g, t', d.storage) ∧
              (OwnIds d.storage (recordsFrom 0 ws) g ↔
                ∀ (k : ℕ) (w : Written), ws[k]? = some w → w.type = DeltaChunk →
                  ((css.flatten.take k).map Chunk.len).sum / 8192 % 2 ^ 32 = k) := by
  have hbytes' : ((files.map Prod.snd).map fun f => (f.getD []).length).sum < 2 ^ 64 := by
    rw [List.map_map]; exact hbytes
  refine ⟨fun hpos => ?_, fun css k hd => ?_⟩
  · obtain ⟨css, k, hd, -⟩ := filesFit_new hpos hmm (by omega) mask hbytes'
    rw [hd]; rfl
  have hfit := filesFit_of_drained hmm hmax mask hbytes' hd
  obtain ⟨hsome, hrun⟩ := addFiles_new_of_fit p codec cacheSize hfit
  refine ⟨hsome, fun d hadd => ?_⟩
  obtain ⟨ws, hs, hws⟩ := hrun d hadd
  refine ⟨ws, hs.log, hws, fun t => ⟨_, _, dividByBase_ok codec hs.log.store t, ?_⟩⟩
  rw [ownIds_iff hs.log.store, idsFit_log hws]
  exact lt_of_le_of_lt (Nat.le_add_left _ _) hfit.bytes

open InsertMap in
/-- A file of a full block, then one of one byte: the second chunk is a delta against the first, and carries
its own id. -/
theorem grouped_ids_iff_full : ∃ d ws g t',
    (DeltaCompression.new (FastCDC.new 8192 8192 0) (BestFitIndex.new (.byInsertion _) 12) 1).addFiles .fewBytes
        (OdessSubfeatures.call : Chunk → Feature ℚ) [("a", some (List.replicate 8192 0)), ("b", some [1])] = some d ∧
      d.storage.dividByBase .fewBytes {} = some (g, t', d.storage) ∧ g[0]? = some [⟨[1], 1⟩] ∧
      OwnIds d.storage (recordsFrom 0 ws) g := by
  have hlens : (drainFiles [some (List.replicate 8192 0), some [1]] (FastCDC.new 8192 8192 0)).map
      (fun r => r.1.flatten.map Chunk.len) = some [8192, 1] := by decide +kernel
  have hgroup : (((DeltaCompression.new (FastCDC.new 8192 8192 0) (BestFitIndex.new (.byInsertion _) 12) 1).addFiles
      .fewBytes (OdessSubfeatures.call : Chunk → Feature ℚ)
      [("a", some (List.replicate 8192 0)), ("b", some [1])]).bind fun d =>
        (d.storage.dividByBase .fewBytes {}).map fun r => r.1[0]?) = some (some [⟨[1], 1⟩]) := by decide +kernel
  obtain ⟨⟨css, k⟩, hd, hlens⟩ := Option.map_eq_some_iff.1 hlens
  obtain ⟨d, hadd, hgroup⟩ := Option.bind_eq_some_iff.1 hgroup
  obtain ⟨⟨g, t', s⟩, hg, hgroup⟩ := Option.map_eq_some_iff.1 hgroup
  obtain ⟨-, hrun⟩ := (grouped_ids_iff (FeatureIndex.bestfit (ρ := ℚ) (.byInsertion _)) (le_refl 8192) (by decide) 0
    .fewBytes 1 [("a", some (List.replicate 8192 0)), ("b", some [1])] (by decide +kernel)).2 css k hd
  obtain ⟨ws, -, hws, hdiv⟩ := hrun d hadd
  obtain ⟨g₁, t₁, hg₁, hiff⟩ := hdiv {}
  obtain ⟨rfl, hrest⟩ := Prod.mk.inj (Option.some.inj (hg.symm.trans hg₁))
  obtain ⟨rfl, rfl⟩ := Prod.mk.inj hrest
  refine ⟨d, ws, g, t', hadd, hg, hgroup, hiff.2 fun k w hk _ => ?_⟩
  dsimp only at hlens
  have hl : ws.length = 2 := by
    have hcount := congrArg List.length hws
    have hcount' := congrArg List.length hlens
    rw [List.length_map] at hcount hcount'
    rw [hcount, List.length_map, hcount']
    rfl
  have hlt := (List.getElem?_eq_some_iff.1 hk).1
  rw [List.map_take, hlens]
  obtain rfl | rfl : k = 0 ∨ k = 1 := by omega
  · rfl
  · rfl

open InsertMap in
/-- Two files of one byte, each a chunk of its own with blocks of 8192: the second is a delta, and
gets the id of the first. -/
theorem grouped_ids_wrong : ∃ d ws g t',
    (DeltaCompression.new (FastCDC.new 8192 8192 0) (BestFitIndex.new (.byInsertion _) 12) 1).addFiles
        ⟨List.length, List.length, List.length⟩ (OdessSubfeatures.call : Chunk → Feature ℚ)
        [("a", some [1]), ("b", some [1])] = some d ∧
      StoreLog d.storage ws ∧
      d.storage.dividByBase ⟨List.length, List.length, List.length⟩ {} = some (g, t', d.storage) ∧
      g[0]? = some [⟨[1], 0⟩] ∧ ¬ OwnIds d.storage (recordsFrom 0 ws) g := by
  have heval : (((DeltaCompression.new (FastCDC.new 8192 8192 0) (BestFitIndex.new (.byInsertion _) 12) 1).addFiles
      ⟨List.length, List.length, List.length⟩ (OdessSubfeatures.call : Chunk → Feature ℚ)
      [("a", some [1]), ("b", some [1])]).bind fun d =>
        (d.storage.dividByBase ⟨List.length, List.length, List.length⟩ {}).map fun r => r.1[0]?) =
      some (some [⟨[1], 0⟩]) := by decide +kernel
  obtain ⟨css, k, hd, -, hrun⟩ := addFiles_new (FeatureIndex.bestfit (ρ := ℚ) (.byInsertion _))
    (by decide : 1 ≤ 8192) le_rfl (by decide) 0 ⟨List.length, List.length, List.length⟩ 1
    [("a", some [1]), ("b", some [1])] (by decide)
  have hcss : (drainFiles [some [1], some [1]] (FastCDC.new 8192 8192 0)).map Prod.fst =
      some [[⟨[1], 0⟩], [⟨[1], 1⟩]] := by decide +kernel
  rw [show drainFiles [some [1], some [1]] (FastCDC.new 8192 8192 0) = some (css, k) from hd] at hcss
  obtain rfl : css = [[⟨[1], 0⟩], [⟨[1], 1⟩]] := Option.some.inj hcss
  obtain ⟨d, hadd, hdiv⟩ := Option.bind_eq_some_iff.1 heval
  obtain ⟨⟨g, t', s⟩, hg, hgroup⟩ := Option.map_eq_some_iff.1 hdiv
  obtain ⟨ws, hs, -⟩ := (hrun (by decide)).2 d hadd
  have hok := dividByBase_ok ⟨List.length, List.length, List.length⟩ hs.log.store {}
  obtain ⟨rfl, hrest⟩ := Prod.mk.inj (Option.some.inj (hg.symm.trans hok))
  obtain ⟨rfl, rfl⟩ := Prod.mk.inj hrest
  refine ⟨d, ws, _, _, hadd, hs.log, hok, hgroup, fun h => ?_⟩
  -- record 0 would be a delta
  have hmem : 0 ∈ deltaIds 0 (recordsFrom 0 ws) := by
    rw [← h.ids 0 _ hgroup]
    exact List.mem_cons_self
  obtain ⟨r, hr, ht, -⟩ := mem_deltaIds.1 hmem
  rw [getElem?_recordsFrom, Option.map_eq_some_iff] at hr
  obtain ⟨w, hw, rfl⟩ := hr
  rcases hs.refs 0 w hw with ⟨htb, -⟩ | ⟨-, j, w', hj, -⟩
  · exact absurd (htb.symm.trans ht) (by decide)
  · exact absurd hj (Nat.not_lt_zero j)

end ChunkGrouping
