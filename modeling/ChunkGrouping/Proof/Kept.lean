import ChunkGrouping.Proof.Divide

/-!
# A call that returns leaves the store as it was

Whatever `data_` holds, and wherever the records lead: a store whose positions are at the
end comes out of reading a chunk and of regrouping as it went in, and out of encoding
with another cache.

* `RecordsOK.groupByBase`: such a call.
* `RecordsOK.dividByBase`: every group is named by a record.
-/

namespace ChunkGrouping

open CFile

variable {s s' : Storage} {ms : List ChunkMeta}

theorem mem_touch {g : Groups} {base b : ℕ} (h : b ∈ g.touch base) : b ∈ g ∨ b = base := by
  unfold Groups.touch at h
  rw [Std.TreeMap.mem_alter] at h
  split at h
  · exact .inr (Nat.compare_eq_eq.1 ‹_›).symm
  · exact .inl h

theorem mem_pushBack {g : Groups} {base b : ℕ} {c : Chunk} (h : b ∈ g.pushBack base c) : b ∈ g ∨ b = base := by
  unfold Groups.pushBack at h
  rw [Std.TreeMap.mem_alter] at h
  split at h
  · exact .inr (Nat.compare_eq_eq.1 ‹_›).symm
  · exact .inl h

/-- **The loop of `dividByBase`**, from record `k` on: only positions change, and every group is named
by a record. -/
theorem dividLoop_kept (codec : Codec) (hm : s.metaFile.bytes = ms.flatMap ChunkMeta.toBytes) :
    ∀ (fuel k : ℕ) (g g' : Groups) (t t' : Totals) (s₁ s' : Storage), SameBytes s s₁ →
      s₁.metaFile.pos = k * sizeofChunkMeta → k ≤ ms.length → s₁.dividLoop codec fuel g t = some (g', t', s') →
      SameBytes s s' ∧ ∀ b ∈ g', b ∈ g ∨ ∃ m ∈ ms, m.baseChunkId.toNat = b := by
  intro fuel
  induction fuel with
  | zero => intro k g g' t t' s₁ s' _ _ _ h; simp [Storage.dividLoop] at h
  | succ fuel ih =>
    intro k g g' t t' s₁ s' hsame hpos hk h
    rcases hk.lt_or_eq with hlt | rfl
    · obtain ⟨hgot, hnext⟩ := fread_record (hsame.metaBytes.trans hm) hpos (List.getElem?_eq_getElem hlt)
      -- the groups of the round and those of the rest
      have hrest : ∀ {g₁ : Groups} {t₁ : Totals} {f : Stream}, f.bytes = s₁.dataFile.bytes →
          (∀ b ∈ g₁, b ∈ g ∨ b = ms[k].baseChunkId.toNat) →
          Storage.dividLoop codec fuel g₁ t₁
            { s₁ with metaFile := (fread sizeofChunkMeta s₁.metaFile).2, dataFile := f } = some (g', t', s') →
          SameBytes s s' ∧ ∀ b ∈ g', b ∈ g ∨ ∃ m ∈ ms, m.baseChunkId.toNat = b := by
        intro g₁ t₁ f hf hg₁ hloop
        obtain ⟨hb, hmem⟩ := ih (k + 1) _ _ _ _
          { s₁ with metaFile := (fread sizeofChunkMeta s₁.metaFile).2, dataFile := f } _
          (hsame.read _ hf) hnext hlt hloop
        refine ⟨hb, fun b hb' => ?_⟩
        rcases hmem b hb' with hb' | hm
        · exact (hg₁ b hb').imp_right fun he => ⟨_, List.getElem_mem hlt, he.symm⟩
        · exact .inr hm
      have htouch : ∀ b ∈ (if ms[k].type = BaseChunk then g.touch ms[k].baseChunkId.toNat else g),
          b ∈ g ∨ b = ms[k].baseChunkId.toNat := by
        intro b hb
        split at hb
        · exact mem_touch hb
        · exact .inl hb
      have hbytes : ∀ {size id offset : ℕ} {f f' : Stream} {c : Chunk},
          Chunk.fromFileStream size id (seekSet offset f) = some (c, f') → f'.bytes = f.bytes := by
        intro size id offset f f' c hc
        rw [fromFileStream_seekSet, Option.ite_none_right_eq_some] at hc
        rw [← (Prod.mk.inj (Option.some.inj hc.2)).2]
        rfl
      unfold Storage.dividLoop at h
      simp only [hgot, ofBytes_toBytes, Option.bind_eq_bind, Option.bind_eq_some_iff] at h
      obtain ⟨⟨chunk, f⟩, hc, h⟩ := h
      by_cases hD : ms[k].type = DeltaChunk
      · rw [if_pos hD] at h
        obtain ⟨⟨delta, f'⟩, hc', h⟩ := Option.bind_eq_some_iff.1 h
        refine hrest ((hbytes hc').trans (hbytes hc)) (fun b hb => ?_) h
        rcases mem_pushBack hb with hb | hb
        · exact htouch b hb
        · exact .inr hb
      · rw [if_neg hD] at h
        exact hrest (hbytes hc) htouch h
    · have hgot := fread_end (hsame.metaBytes.trans hm) hpos
      have hnone : ChunkMeta.ofBytes [] = none := rfl
      unfold Storage.dividLoop at h
      simp only [hgot, hnone, Option.some.injEq, Prod.mk.injEq] at h
      obtain ⟨rfl, -, rfl⟩ := h
      exact ⟨⟨hsame.metaBytes, hsame.dataBytes, hsame.cache⟩, fun b hb => .inl hb⟩

/-- **`dividByBase`**: the store as before, every group named by a record. -/
theorem RecordsOK.dividByBase (h : RecordsOK s ms) {codec : Codec} {t t' : Totals} {g : Groups}
    (hd : s.dividByBase codec t = some (g, t', s')) : s' = s ∧ ∀ b ∈ g, ∃ m ∈ ms, m.baseChunkId.toNat = b := by
  simp only [Storage.dividByBase, Option.bind_eq_bind, Option.bind_eq_some_iff, Option.some.injEq,
    Prod.mk.injEq] at hd
  obtain ⟨⟨g', t₁, s₁⟩, hloop, rfl, -, rfl⟩ := hd
  obtain ⟨hsame, hmem⟩ := dividLoop_kept codec h.metaBytes _ 0 _ _ _ _ { s with metaFile := seekSet 0 s.metaFile } _
    ⟨rfl, rfl, rfl⟩ (Nat.zero_mul _).symm (Nat.zero_le _) hloop
  refine ⟨?_, fun b hb => ?_⟩
  · rw [seekEnd_eq h.metaEnd hsame.metaBytes, seekEnd_eq h.dataEnd hsame.dataBytes, hsame.cache]
  · rcases hmem b hb with hb | hm
    · exact absurd hb Std.TreeMap.not_mem_emptyc
    · exact hm

namespace GroupState

variable {codec : Codec} {g g' : GroupState} {b : ℕ}

theorem getChunkContent_kept (h : RecordsOK g.storage ms) {c : Chunk}
    (hg : g.getChunkContent b = some (c, g')) : g'.storage = g.storage := by
  simp only [GroupState.getChunkContent, Option.bind_eq_bind, Option.bind_eq_some_iff, Option.some.injEq,
    Prod.mk.injEq] at hg
  obtain ⟨⟨c', s₁⟩, hg, -, rfl⟩ := hg
  exact h.getChunkContent hg

/-- Compressing a buffer is not the storage's business. -/
theorem compress_kept {lz4 : List UInt8 → ℕ} {buf : SrcBuffer} (hc : (do
      let g ← g.compressLz4 lz4 buf
      g.compressZstd codec buf) = some g') : g'.storage = g.storage := by
  simp only [compressLz4, compressZstd, Option.bind_eq_bind, Option.bind_eq_some_iff, Option.some.injEq] at hc
  obtain ⟨_, ⟨_, -, rfl⟩, _, -, rfl⟩ := hc
  rfl

theorem compressBase_kept (h : RecordsOK g.storage ms) (hc : g.compressBase codec b = some g') :
    g'.storage = g.storage := by
  obtain ⟨⟨c, g₁⟩, hg, hc⟩ := Option.bind_eq_some_iff.1 hc
  obtain ⟨buf, -, hc⟩ := Option.bind_eq_some_iff.1 hc
  exact (compress_kept hc).trans (getChunkContent_kept h hg)

theorem compressBatch_kept {batch : List Chunk} (h : RecordsOK g.storage ms)
    (hc : g.compressBatch codec b batch = some g') : g'.storage = g.storage := by
  have hend : ∀ {buf : SrcBuffer} {g₁ : GroupState}, (do
      let buf ← copyAll batch buf
      let g ← g₁.compressLz4 codec.lz4Frame buf
      g.compressZstd codec buf) = some g' → g'.storage = g₁.storage := by
    intro buf g₁ hc
    obtain ⟨_, -, hc⟩ := Option.bind_eq_some_iff.1 hc
    exact compress_kept hc
  unfold compressBatch at hc
  dsimp only at hc
  split at hc
  · obtain ⟨⟨c, g₁⟩, hg, hc⟩ := Option.bind_eq_some_iff.1 hc
    obtain ⟨buf, -, hc⟩ := Option.bind_eq_some_iff.1 hc
    have h₁ := getChunkContent_kept (by exact h) hg
    exact (hend hc).trans h₁
  · have h₁ := hend hc
    exact h₁

theorem batchLoop_kept {groupSize : ℕ} {ds : List Chunk} : ∀ (fuel i : ℕ) {g : GroupState},
    RecordsOK g.storage ms → g.batchLoop codec groupSize b ds fuel i = some g' → g'.storage = g.storage := by
  intro fuel
  induction fuel with
  | zero =>
    intro i g h hl
    unfold batchLoop at hl
    split at hl
    · cases hl
    · rw [← Option.some.inj hl]
  | succ fuel ih =>
    intro i g h hl
    unfold batchLoop at hl
    split at hl
    · obtain ⟨g₁, hb, hl⟩ := Option.bind_eq_some_iff.1 hl
      have h₁ := compressBatch_kept h hb
      exact (ih _ (h₁ ▸ h) hl).trans h₁
    · rw [← Option.some.inj hl]

theorem compressGroup_kept {groupSize : ℕ} {ds : List Chunk} (h : RecordsOK g.storage ms)
    (hc : g.compressGroup codec groupSize b ds = some g') : g'.storage = g.storage := by
  obtain ⟨⟨c, g₁⟩, hg, hc⟩ := Option.bind_eq_some_iff.1 hc
  have h₁ := getChunkContent_kept h hg
  dsimp only at hc
  split at hc
  · exact (compressBase_kept (h₁ ▸ h) hc).trans h₁
  · obtain ⟨g₂, hl, hc⟩ := Option.bind_eq_some_iff.1 hc
    have h₂ : g₂.storage = g.storage := by
      refine (batchLoop_kept _ _ (?_ : RecordsOK _ ms) hl).trans ?_
      · split <;> exact h₁ ▸ h
      · split <;> exact h₁
    split at hc
    · exact (compressBase_kept (h₂ ▸ h) hc).trans h₂
    · rw [← Option.some.inj hc, h₂]

theorem groupLoop_kept {groupSize : ℕ} (groups : List (ℕ × List Chunk)) : ∀ {g : GroupState},
    RecordsOK g.storage ms → groupLoop codec groupSize groups g = some g' → g'.storage = g.storage := by
  induction groups with
  | nil => intro g h hl; rw [← Option.some.inj hl]
  | cons x groups ih =>
    intro g h hl
    obtain ⟨g₁, hc, hl⟩ := Option.bind_eq_some_iff.1 hl
    have h₁ := compressGroup_kept h hc
    exact (ih (h₁ ▸ h) hl).trans h₁

end GroupState

/-- **`groupByBase`** leaves the store as it was. -/
theorem RecordsOK.groupByBase (h : RecordsOK s ms) {codec : Codec} {groupSize : ℕ} {t : Totals} {g : GroupState}
    (hg : s.groupByBase codec groupSize t = some g) : g.storage = s := by
  obtain ⟨⟨groups, t', s₁⟩, hd, hl⟩ := Option.bind_eq_some_iff.1 hg
  obtain rfl := (h.dividByBase hd).1
  exact GroupState.groupLoop_kept _ (show RecordsOK _ ms from h) hl

end ChunkGrouping
