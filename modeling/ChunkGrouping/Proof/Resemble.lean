import ChunkGrouping.Proof.BestMatch
import ChunkGrouping.Proof.GearWindow

/-!
# Changed chunks find a base

A sub-feature is the minimum of what is sampled at the positions of a chunk, and 32 bytes behind a
change the fingerprints are what they were. So where the minimum is taken in what two chunks have in
common, they share the sub-feature, and from four of these on `BestFitIndex` finds a base for one
when it has the other.

* `TakenIn`: the minimum is taken in the common rest; `TakenIn.run_eq` for two chunks.
* `card_le_agree`: slots that are equal.
* `changed_chunk_matched`: any sequence of `AddFeature` calls.
-/

namespace ChunkGrouping

open InsertMap RunningMin RollingHash

variable {u v w : List UInt8} {j n : ℕ}

/-- **Minimum `j` of a chunk `u ++ w` is taken in `w`**, at least 32 bytes into it. -/
def TakenIn (u w : List UInt8) (j : ℕ) : Prop :=
  ∃ n, 32 ≤ n ∧ n ≤ w.length ∧ sampledAt (gearPrint (u ++ w.take n)) = true ∧
    ∀ i, i < (u ++ w).length → sampledAt (gearPrint ((u ++ w).take (i + 1))) = true →
      Features.transform j (gearPrint (u ++ w.take n)) ≤ Features.transform j (gearPrint ((u ++ w).take (i + 1)))

/-- Where nothing else is sampled, every minimum is taken. -/
theorem takenIn_of_only (h32 : 32 ≤ n) (hn : n ≤ w.length) (hs : sampledAt (gearPrint (u ++ w.take n)) = true)
    (honly : ∀ i, i < (u ++ w).length → sampledAt (gearPrint ((u ++ w).take (i + 1))) = true → i + 1 = u.length + n)
    (j : ℕ) : TakenIn u w j :=
  ⟨n, h32, hn, hs, fun i hi hp => by rw [honly i hi hp, List.take_length_add_append]⟩

/-- **32 bytes behind a change** the low half is what it was. -/
theorem gearPrint_low (h32 : 32 ≤ n) (hn : n ≤ w.length) :
    (gearPrint (u ++ w.take n)).toUInt32 = (gearPrint (v ++ w.take n)).toUInt32 := by
  have hlen : 32 ≤ (w.take n).length := by
    rw [List.length_take]
    omega
  have hmod := (ZMod.natCast_eq_natCast_iff _ _ _).1
    ((rolling_gearStep (show 32 ≤ 64 by decide)).foldl_append (two_pow_eq_zero 32) hlen u v 0 0)
  rw [← UInt32.toNat_inj, UInt64.toNat_toUInt32, UInt64.toNat_toUInt32]
  exact hmod

/-- What is sampled in the rest is so whatever stands before it. -/
theorem isSampled_rest (h32 : 32 ≤ n) (hn : n ≤ w.length) (hs : sampledAt (gearPrint (u ++ w.take n)) = true) (id : ℕ) :
    IsSampled sampledAt ⟨v ++ w, id⟩ (gearPrint (v ++ w.take n)) := by
  refine ⟨v.length + n - 1, ?_, ?_, ?_⟩
  · show _ < (v ++ w).length
    rw [List.length_append]
    omega
  · rw [show v.length + n - 1 + 1 = v.length + n by omega, List.take_length_add_append]
  · rw [← sampledAt_toUInt32, ← gearPrint_low (u := u) h32 hn, sampledAt_toUInt32]
    exact hs

/-- **A chunk with the same rest** has no larger minimum. -/
theorem TakenIn.run_le (h : TakenIn u w j) (hj : j < 12) (id id' : ℕ) :
    run (sampledTransforms sampledAt ⟨v ++ w, id⟩ j) ≤ run (sampledTransforms sampledAt ⟨u ++ w, id'⟩ j) := by
  obtain ⟨n, h32, hn, hs, hmin⟩ := h
  have hu := (mem_sampledTransforms (j := j)).2 ⟨_, isSampled_rest (v := u) h32 hn hs id', rfl⟩
  have hv := (mem_sampledTransforms (j := j)).2 ⟨_, isSampled_rest (v := v) h32 hn hs id, rfl⟩
  have hleast := isLeast_run (List.ne_nil_of_mem hu) (bot_notMem_sampledTransforms ⟨u ++ w, id'⟩ hj)
  -- the minimum of `u ++ w` is sampled at some position, and is not below the one in the rest
  obtain ⟨fp, ⟨i, hi, rfl, hp⟩, ht⟩ := mem_sampledTransforms.1 hleast.1
  calc run (sampledTransforms sampledAt ⟨v ++ w, id⟩ j)
      ≤ Features.transform j (gearPrint (v ++ w.take n)) :=
        (isLeast_run (List.ne_nil_of_mem hv) (bot_notMem_sampledTransforms _ hj)).2 hv
    _ = Features.transform j (gearPrint (u ++ w.take n)) := transform_congr (gearPrint_low h32 hn) j
    _ ≤ Features.transform j (gearPrint ((u ++ w).take (i + 1))) := hmin i hi hp
    _ = run (sampledTransforms sampledAt ⟨u ++ w, id'⟩ j) := ht

/-- **Two chunks whose minimum is taken in the common rest** share it. -/
theorem TakenIn.subFeature_eq (h : TakenIn u w j) (h' : TakenIn v w j) (hj : j < 12) (id id' : ℕ) :
    (OdessSubfeatures.subFeatures ⟨u ++ w, id⟩)[j]? = (OdessSubfeatures.subFeatures ⟨v ++ w, id'⟩)[j]? := by
  refine Option.map_injective (fun a b => UInt64.toNat_inj.1) ?_
  rw [getElem?_subFeatures_wide _ hj, getElem?_subFeatures_wide _ hj]
  exact congrArg some ((h'.run_le hj id id').antisymm (h.run_le hj id' id))

/-- Slots that pass. -/
theorem card_le_countP {α : Type} {p : α → Bool} (l : List α) : ∀ {S : Finset ℕ},
    (∀ j ∈ S, ∃ x, l[j]? = some x ∧ p x = true) → S.card ≤ l.countP p := by
  induction l using List.reverseRecOn with
  | nil =>
    intro S h
    have hempty : S = ∅ := Finset.eq_empty_of_forall_notMem fun j hj => by
      obtain ⟨x, hx, -⟩ := h j hj
      cases hx
    rw [hempty]
    rfl
  | append_singleton l x ih =>
    intro S h
    have hrest : (S.erase l.length).card ≤ l.countP p := ih fun j hj => by
      obtain ⟨hne, hj⟩ := Finset.mem_erase.1 hj
      obtain ⟨y, hy, hp⟩ := h j hj
      have hlt := (List.getElem?_eq_some_iff.1 hy).1
      rw [List.length_append, List.length_singleton] at hlt
      exact ⟨y, by rwa [List.getElem?_append_left (by omega)] at hy, hp⟩
    rw [List.countP_append]
    by_cases hlast : l.length ∈ S
    · obtain ⟨y, hy, hp⟩ := h _ hlast
      rw [List.getElem?_concat_length, Option.some.injEq] at hy
      have hone := Finset.card_erase_add_one hlast
      rw [List.countP_singleton, hy, hp]
      simp only [if_true]
      omega
    · rw [Finset.erase_eq_of_notMem hlast] at hrest
      omega

/-- **Slots that are equal.** -/
theorem card_le_agree {q q' : List UInt64} {S : Finset ℕ} (h : ∀ j ∈ S, q[j]? = q'[j]? ∧ j < q.length) :
    S.card ≤ BestFitIndex.agree q q' := by
  refine card_le_countP _ fun j hj => ?_
  obtain ⟨heq, hlt⟩ := h j hj
  have hq := List.getElem?_eq_getElem hlt
  exact ⟨(q[j], q[j]), List.getElem?_zip_eq_some.2 ⟨hq, heq ▸ hq⟩, beq_self_eq_true _⟩

open BestFitIndex in
/-- **A changed chunk finds a base.** `BestFitIndex` has the sub-features of some chunks, one of them `u ++ w`. Where
at least four minima of this chunk and of `v ++ w` are taken in the common rest, a lookup for the latter answers one
of the chunks, and the two agree in at least as many sub-features. -/
theorem changed_chunk_matched {ρ : Type} (order : IterOrder (ℕ × ℕ)) (chunks : List Chunk)
    (hids : (chunks.map Chunk.id).Nodup) {c query : Chunk} (hc : c ∈ chunks) (hbuf : c.buf = u ++ w)
    (hquery : query.buf = v ++ w) (S : Finset ℕ) (hS : ∀ j ∈ S, j < 12 ∧ TakenIn u w j ∧ TakenIn v w j)
    (hfour : 4 ≤ S.card) :
    ∃ idx base, addAll ρ (chunks.map fun c => (OdessSubfeatures.subFeatures c, c.id)) (new order 12) = some idx ∧
      getBaseChunkID (OdessSubfeatures.call query : Feature ρ) idx = some (some base.id) ∧ base ∈ chunks ∧
      S.card ≤ agree (OdessSubfeatures.subFeatures base) (OdessSubfeatures.subFeatures query) := by
  obtain ⟨_, id⟩ := c
  obtain ⟨_, id'⟩ := query
  dsimp only at hbuf hquery
  subst hbuf hquery
  set adds := chunks.map fun c => (OdessSubfeatures.subFeatures c, c.id) with hadds
  set q := OdessSubfeatures.subFeatures ⟨v ++ w, id'⟩ with hq
  have hlen : ∀ a ∈ adds, a.1.length = 12 := by
    rw [hadds, List.forall_mem_map]
    exact fun c _ => OdessSubfeatures.length_subFeatures c
  have hnodup : (adds.map Prod.snd).Nodup := by rwa [hadds, List.map_map]
  obtain ⟨idx, hidx, hready, hhits⟩ := hits_addAll (ρ := ρ) adds (ready_new order) hlen
  have hunder : ∀ id, hits id idx.index q = agreeUnder adds q id := fun id => by rw [hhits, hits_new, Nat.zero_add]
  have hadded : S.card ≤ hits id idx.index q := by
    rw [hunder, agreeUnder_eq hnodup (List.mem_map.2 ⟨_, hc, rfl⟩)]
    exact card_le_agree fun j hj => ⟨(hS j hj).2.1.subFeature_eq (hS j hj).2.2 (hS j hj).1 id id', by
      rw [OdessSubfeatures.length_subFeatures]
      exact (hS j hj).1⟩
  obtain ⟨o, ho, hsome, hbest⟩ := getBaseChunkID_ok (ρ := ρ)
    (hready.trans (OdessSubfeatures.length_subFeatures ⟨v ++ w, id'⟩).symm)
  obtain ⟨b, rfl⟩ := Option.isSome_iff_exists.1 (hsome.2 ⟨id, hfour.trans hadded⟩)
  obtain ⟨hb, hmost⟩ := hbest b rfl
  have hpos : 0 < agreeUnder adds q b := by
    rw [← hunder]
    exact (by decide : 0 < 4).trans_le hb
  obtain ⟨q', hq'⟩ := exists_of_agreeUnder hpos
  obtain ⟨base, hbase, he⟩ := List.mem_map.1 hq'
  obtain ⟨rfl, rfl⟩ := Prod.mk.inj he
  refine ⟨idx, base, hidx, ho, hbase, hadded.trans ((hmost id).trans ?_)⟩
  rw [hunder, agreeUnder_eq hnodup hq']

open BestFitIndex in
/-- Three chunks in the index, the second of which differs from the query in its first byte only. -/
theorem changed_chunk_matched_three :
    ∃ idx, addAll ℚ [(OdessSubfeatures.subFeatures ⟨[5, 6, 7], 3⟩, 3),
        (OdessSubfeatures.subFeatures ⟨1 :: (List.range 32).map fun i => .ofNat (26 + i), 0⟩, 0),
        (OdessSubfeatures.subFeatures ⟨(List.range 40).map fun i => .ofNat (7 * i), 4⟩, 4)] (new (.byInsertion _) 12) =
        some idx ∧
      getBaseChunkID (OdessSubfeatures.call ⟨2 :: (List.range 32).map fun i => .ofNat (26 + i), 5⟩ : Feature ℚ) idx =
        some (some 0) := by
  set w : List UInt8 := (List.range 32).map fun i => .ofNat (26 + i) with hw
  have hone := takenIn_of_only (u := [1]) (w := w) (n := 32) le_rfl (by decide) (by decide +kernel) (by decide +kernel)
  have htwo := takenIn_of_only (u := [2]) (w := w) (n := 32) le_rfl (by decide) (by decide +kernel) (by decide +kernel)
  obtain ⟨idx, base, hidx, hget, hbase, hagree⟩ := changed_chunk_matched (ρ := ℚ) (c := ⟨1 :: w, 0⟩)
    (u := [1]) (v := [2]) (.byInsertion _)
    [⟨[5, 6, 7], 3⟩, ⟨1 :: w, 0⟩, ⟨(List.range 40).map fun i => .ofNat (7 * i), 4⟩] (by decide) (by simp) rfl
    (show (⟨2 :: w, 5⟩ : Chunk).buf = [2] ++ w from rfl) {0, 1, 2, 3}
    (fun j hj => ⟨by simp at hj; omega, hone j, htwo j⟩) (by decide)
  -- the other two agree with the query nowhere
  have hfirst : agree (OdessSubfeatures.subFeatures ⟨[5, 6, 7], 3⟩) (OdessSubfeatures.subFeatures ⟨2 :: w, 5⟩) = 0 := by
    decide +kernel
  have hlast : agree (OdessSubfeatures.subFeatures ⟨(List.range 40).map fun i => .ofNat (7 * i), 4⟩)
      (OdessSubfeatures.subFeatures ⟨2 :: w, 5⟩) = 0 := by decide +kernel
  simp only [List.mem_cons, List.not_mem_nil, or_false] at hbase
  rcases hbase with rfl | rfl | rfl
  · exact absurd (hfirst ▸ hagree) (by decide)
  · exact ⟨idx, hidx, hget⟩
  · exact absurd (hlast ▸ hagree) (by decide)

end ChunkGrouping
