import ChunkGrouping.Proof.Layout

/-!
# Batches of any size

`groupByBase` cuts the deltas of a group into batches of `group_size`, but puts the base in
front of the batches shorter than 16, and compresses it alone when the number of deltas is
a multiple of 16. With `group_size` other than 16 the base can be in several buffers or in
none.

* `sizedLayout`: the buffers of a store, for any `group_size`.
* `countP_base`: how many of them a base is in.
* `groupByBase_sized_iff`: when each base is in one.
-/

namespace ChunkGrouping

open Batching GroupState

/-- **`group_size` is honoured**: no buffer has more deltas, and each base is in one. -/
structure SizeHonoured (g : ℕ) (rs : List Record) (buffers : List (List ℕ)) : Prop where
  batch : ∀ ids ∈ buffers, (ids.filter fun k => k ∈ allDeltaIds rs).length ≤ g
  base : ∀ b ∈ baseIds rs, buffers.countP (fun ids => b ∈ ids) = 1

/-- The base of a group of `n` deltas is compressed once: with batches shorter than 16 there is one of
them, with others either the last one is short or the base is compressed alone. -/
def BaseOnce (g n : ℕ) : Prop :=
  if g < 16 then n ≤ g else (0 < n % g ∧ n % g < 16 ↔ ¬ n % 16 = 0)

instance (g n : ℕ) : Decidable (BaseOnce g n) := by unfold BaseOnce; infer_instance

variable {rs : List Record} {g b n : ℕ} {ds : List ℕ}

/-! ## How often a base is compressed -/

theorem mem_batches {α : Type*} (hg : 0 < g) {l batch : List α} (h : batch ∈ batches g l) :
    batch.length ≤ g ∧ ∀ a ∈ batch, a ∈ l := by
  refine ⟨?_, fun a ha => ?_⟩
  · unfold batches at h
    obtain ⟨j, -, rfl⟩ := List.mem_map.1 h
    exact List.length_take_le _ _
  · rw [← flatten_batches hg l]
    exact List.mem_flatten_of_mem h ha

/-- The batches shorter than `k`. -/
theorem countP_batches {α : Type*} (hg : 0 < g) (k : ℕ) (l : List α) :
    (batches g l).countP (fun batch => batch.length < k) =
      (if g < k then l.length / g else 0) + if 0 < l.length % g ∧ l.length % g < k then 1 else 0 := by
  have hdm := Nat.div_add_mod l.length g
  have hfull : ((List.range (l.length / g)).map fun j => (l.drop (g * j)).take g).countP
      (fun batch => batch.length < k) = if g < k then l.length / g else 0 := by
    have hlen : ∀ j ∈ List.range (l.length / g), ((l.drop (g * j)).take g).length = g := by
      intro j hj
      have hle : g * (j + 1) ≤ g * (l.length / g) := Nat.mul_le_mul_left g (List.mem_range.1 hj)
      rw [Nat.mul_succ] at hle
      rw [List.length_take, List.length_drop]
      omega
    rw [List.countP_map]
    split
    · rename_i hgk
      rw [List.countP_eq_length.2, List.length_range]
      intro j hj
      simp only [Function.comp_apply, hlen j hj, hgk, decide_true]
    · rename_i hgk
      refine List.countP_eq_zero.2 fun j hj => ?_
      simp only [Function.comp_apply, hlen j hj, hgk, decide_false, Bool.false_eq_true, not_false_eq_true]
  rw [batches_eq hg, List.countP_append, hfull]
  congr 1
  have hrest : (l.drop (g * (l.length / g))).length = l.length % g := by
    rw [List.length_drop]
    omega
  by_cases h0 : l.length % g = 0
  · rw [if_pos h0, if_neg (by omega), List.countP_nil]
  · rw [if_neg h0, List.countP_singleton, hrest]
    by_cases hk : l.length % g < k
    · rw [if_pos (by simpa using hk), if_pos ⟨by omega, hk⟩]
    · rw [if_neg (by simpa using hk), if_neg fun h => hk h.2]

/-- **How many buffers of its group a base is in.** -/
theorem countP_base (hg : 0 < g) (hb : b ∉ ds) :
    (sizedGroupLayout g b ds).countP (fun ids => b ∈ ids) =
      (if g < 16 then ds.length / g else 0) + (if 0 < ds.length % g ∧ ds.length % g < 16 then 1 else 0) +
        if ds.length % 16 = 0 then 1 else 0 := by
  have hbatch : ((batches g ds).map fun batch => if batch.length < 16 then b :: batch else batch).countP
      (fun ids => b ∈ ids) = (batches g ds).countP fun batch => batch.length < 16 := by
    rw [List.countP_map]
    refine List.countP_congr fun batch hbatch => ?_
    have hno : b ∉ batch := fun h => hb ((mem_batches hg hbatch).2 b h)
    simp only [Function.comp_apply, decide_eq_true_eq]
    split
    · simp [*]
    · simp [*]
  unfold sizedGroupLayout
  rw [List.countP_append, hbatch, countP_batches hg]
  congr 1
  split
  · simp
  · rfl

theorem baseOnce_iff (hg : 0 < g) : BaseOnce g n ↔
    (if g < 16 then n / g else 0) + (if 0 < n % g ∧ n % g < 16 then 1 else 0) + (if n % 16 = 0 then 1 else 0) = 1 := by
  have hdm := Nat.div_add_mod n g
  have hmod := Nat.mod_lt n hg
  unfold BaseOnce
  by_cases h16 : g < 16
  · rw [if_pos h16, if_pos h16]
    rcases Nat.lt_or_ge n g with hlt | hge
    · have hq := Nat.div_eq_of_lt hlt
      have hr := Nat.mod_eq_of_lt hlt
      rw [hq, hr]
      split <;> split <;> omega
    · have hq : 1 ≤ n / g := Nat.div_pos hge hg
      rcases Nat.eq_or_lt_of_le hge with rfl | hgt
      · rw [Nat.div_self hg, Nat.mod_self]
        split <;> split <;> omega
      · -- a second batch, also short
        have hmany : 2 ≤ n / g ∨ 0 < n % g := by
          by_contra hno
          have hq1 : n / g = 1 := by omega
          rw [hq1, Nat.mul_one] at hdm
          omega
        split <;> split <;> omega
  · rw [if_neg h16, if_neg h16]
    split <;> split <;> simp_all

/-! ## The buffers -/

theorem sizedGroupLayout_batch (hg : 0 < g) {ids : List ℕ} (h : ids ∈ sizedGroupLayout g b ds) {p : ℕ → Bool}
    (hp : p b = false) : (ids.filter p).length ≤ g := by
  unfold sizedGroupLayout at h
  rcases List.mem_append.1 h with h | h
  · obtain ⟨batch, hbatch, rfl⟩ := List.mem_map.1 h
    have hle := (List.length_filter_le p batch).trans (mem_batches hg hbatch).1
    split
    · rwa [List.filter_cons_of_neg (by simp [hp])]
    · exact hle
  · split at h
    · rw [List.mem_singleton.1 h, List.filter_cons_of_neg (by simp [hp])]
      exact Nat.zero_le _
    · cases h

/-- A base is in no buffer of another group. -/
theorem countP_other {b' : ℕ} (hg : 0 < g) (hne : b ≠ b') (hb : b ∉ ds) :
    (sizedGroupLayout g b' ds).countP (fun ids => b ∈ ids) = 0 := by
  refine List.countP_eq_zero.2 fun ids hids hmem => ?_
  unfold sizedGroupLayout at hids
  have hin : b ∈ ids := by simpa using hmem
  rcases List.mem_append.1 hids with h | h
  · obtain ⟨batch, hbatch, rfl⟩ := List.mem_map.1 h
    have hno : b ∉ batch := fun h => hb ((mem_batches hg hbatch).2 b h)
    split at hin
    · exact (List.mem_cons.1 hin).elim hne hno
    · exact hno hin
  · split at h
    · rw [List.mem_singleton.1 h] at hin
      exact hne (List.mem_singleton.1 hin)
    · cases h

theorem not_mem_deltaIds (hb : b ∈ baseIds rs) (b' : ℕ) : b ∉ deltaIds b' rs := by
  intro hmem
  obtain ⟨r, hr, ht⟩ := mem_baseIds.1 hb
  obtain ⟨r', hr', ht', -⟩ := mem_deltaIds.1 hmem
  obtain rfl : r = r' := Option.some.inj (hr.symm.trans hr')
  exact absurd (ht.symm.trans ht') (by decide)

/-- The buffers a base is in are in its group. -/
theorem countP_sizedLayout (hg : 0 < g) (hb : b ∈ baseIds rs) :
    (sizedLayout g rs).countP (fun ids => b ∈ ids) =
      (sizedGroupLayout g b (deltaIds b rs)).countP fun ids => b ∈ ids := by
  have hother : ∀ bs : List ℕ, b ∉ bs →
      (bs.flatMap fun b' => sizedGroupLayout g b' (deltaIds b' rs)).countP (fun ids => b ∈ ids) = 0 := by
    intro bs hno
    rw [List.countP_flatMap, List.sum_eq_zero_iff]
    intro n hn
    obtain ⟨b', hb', rfl⟩ := List.mem_map.1 hn
    exact countP_other hg (fun he => hno (he ▸ hb')) (not_mem_deltaIds hb b')
  obtain ⟨pre, post, hbs⟩ := List.append_of_mem hb
  have hnd := nodup_baseIds rs
  rw [hbs, List.nodup_middle, List.nodup_cons, List.mem_append, not_or] at hnd
  unfold sizedLayout
  rw [hbs, List.flatMap_append, List.flatMap_cons, List.countP_append, List.countP_append, hother _ hnd.1.1,
    hother _ hnd.1.2, Nat.zero_add, Nat.add_zero]

/-- **Exactly when `group_size` is honoured.** -/
theorem sizeHonoured_iff (hg : 0 < g) : SizeHonoured g rs (sizedLayout g rs) ↔
    ∀ b ∈ baseIds rs, BaseOnce g (deltaIds b rs).length := by
  have hcount : ∀ b ∈ baseIds rs, (sizedLayout g rs).countP (fun ids => b ∈ ids) = 1 ↔
      BaseOnce g (deltaIds b rs).length := fun b hb => by
    rw [countP_sizedLayout hg hb, countP_base hg (not_mem_deltaIds hb b), baseOnce_iff hg]
  refine ⟨fun h b hb => (hcount b hb).1 (h.base b hb),
    fun h => ⟨fun ids hids => ?_, fun b hb => (hcount b hb).2 (h b hb)⟩⟩
  obtain ⟨b, hb, hids⟩ := List.mem_flatMap.1 hids
  refine sizedGroupLayout_batch hg hids (decide_eq_false fun hmem => ?_)
  obtain ⟨r, hr, ht⟩ := mem_baseIds.1 hb
  obtain ⟨r', hr', ht'⟩ := mem_allDeltaIds.1 hmem
  obtain rfl : r = r' := Option.some.inj (hr.symm.trans hr')
  exact absurd (ht.symm.trans ht') (by decide)

/-- **The buffers of one call**, for any `group_size`: those of the layout. They honour `group_size` exactly
when the base of every group is compressed once. -/
theorem groupByBase_sized_iff (codec : Codec) (hg : 0 < g) (t : Totals) {s : Storage} (h : StoreOK s rs)
    (hw : WellGrouped rs) :
    ∃ s', s.groupByBase codec g t = some s' ∧ s'.out.lz4 = s'.out.zstd ∧
      s'.out.lz4.map SrcBuffer.copied = (sizedLayout g rs).map (fun ids => ids.flatMap (bytesOf rs)) ∧
      (SizeHonoured g rs (sizedLayout g rs) ↔ ∀ b ∈ baseIds rs, BaseOnce g (deltaIds b rs).length) := by
  refine ⟨_, groupByBase_ok codec hg h hw.lt_length t, rfl, ?_, sizeHonoured_iff hg⟩
  rw [← jobs_sizedLayout g hw]
  simp only [GroupState.add, List.nil_append, List.map_map]
  rfl

/-- A base and two deltas. -/
def threeRecords : List Record :=
  [recordAt 0 BaseChunk 0 [1, 2], recordAt 2 DeltaChunk 0 [3], recordAt 3 DeltaChunk 0 [4]]

/-- Their store. -/
def threeStore : Storage :=
  (((Storage.new 1).writeBaseChunk ⟨[1, 2], 0⟩).writeDeltaChunk ⟨[3], 1⟩ 0).2.writeDeltaChunk ⟨[4], 2⟩ 0 |>.2

theorem threeStore_ok : StoreOK threeStore threeRecords ∧ WellGrouped threeRecords := by
  obtain ⟨h₁, -, -⟩ := writeChunk_ok (storeOK_new 1) BaseChunk 0 ⟨[1, 2], 0⟩ (by decide) (by decide)
  obtain ⟨h₂, -, -⟩ := writeChunk_ok h₁ DeltaChunk 0 ⟨[3], 1⟩ (by decide) (by decide)
  obtain ⟨h₃, -, -⟩ := writeChunk_ok h₂ DeltaChunk 0 ⟨[4], 2⟩ (by decide) (by decide)
  refine ⟨h₃, fun k r hr ht => ?_, fun r hr ht => ?_⟩
  · rcases k with _ | _ | _ | k
    · obtain rfl := Option.some.inj hr; rfl
    · obtain rfl := Option.some.inj hr; exact absurd ht (by decide)
    · obtain rfl := Option.some.inj hr; exact absurd ht (by decide)
    · cases hr
  · simp only [threeRecords, List.mem_cons, List.not_mem_nil, or_false] at hr
    rcases hr with rfl | rfl | rfl
    · exact absurd ht (by decide)
    · exact ⟨_, rfl, rfl⟩
    · exact ⟨_, rfl, rfl⟩

/-- Batches of two: one buffer, the base in front. -/
theorem groupByBase_sized_two : ∃ s',
    threeStore.groupByBase ⟨List.length, List.length, List.length⟩ 2 {} = some s' ∧
      s'.out.lz4.map SrcBuffer.copied = [[1, 2, 3, 4]] ∧ SizeHonoured 2 threeRecords (sizedLayout 2 threeRecords) := by
  obtain ⟨s', hs', -, hcopied, hiff⟩ := groupByBase_sized_iff ⟨List.length, List.length, List.length⟩
    (by decide : 0 < 2) {} threeStore_ok.1 threeStore_ok.2
  exact ⟨s', hs', hcopied.trans (by decide), hiff.2 (by decide)⟩

/-- Batches of one: the base in front of both. -/
theorem groupByBase_repeats_base : ∃ s',
    threeStore.groupByBase ⟨List.length, List.length, List.length⟩ 1 {} = some s' ∧
      s'.out.lz4.map SrcBuffer.copied = [[1, 2, 3], [1, 2, 4]] ∧
      ¬ SizeHonoured 1 threeRecords (sizedLayout 1 threeRecords) := by
  refine ⟨_, groupByBase_ok _ (by decide) threeStore_ok.1 threeStore_ok.2.lt_length {}, ?_, fun h => ?_⟩
  · have hjobs := jobs_sizedLayout 1 threeStore_ok.2
    simp only [GroupState.add, List.nil_append, List.map_map]
    exact hjobs.trans (by decide)
  · exact absurd (h.base 0 (by decide)) (by decide)

end ChunkGrouping
