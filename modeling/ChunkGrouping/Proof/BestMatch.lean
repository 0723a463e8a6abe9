import ChunkGrouping.Proof.BestFitIndex

/-!
# `BestFitIndex` against a comparison with every vector

The lists of the index hold an id at a position under the entry that its vector has there.
Hence `match_count` has for each id the number of positions at which its vector agrees with
the query.

* `hits_addAll`: the hits of an id after any sequence of `AddFeature` calls.
* `best_match`: the lookup answers an id whose vector agrees most, from 4 positions on.
-/

namespace ChunkGrouping

open InsertMap

namespace BestFitIndex

/-- The number of positions at which two vectors agree. -/
def agree (v q : List UInt64) : ℕ := (List.zip v q).countP fun p => p.1 == p.2

/-- A sequence of `AddFeature` calls. -/
def addAll (ρ : Type) (adds : List (List UInt64 × ℕ)) (idx : BestFitIndex) : Option BestFitIndex :=
  adds.foldlM (fun idx a => addFeature (.words a.1 : Feature ρ) a.2 idx) idx

/-- The agreement of `q` with what was added under `id`. -/
def agreeUnder (adds : List (List UInt64 × ℕ)) (q : List UInt64) (id : ℕ) : ℕ :=
  ((adds.filter fun a => a.2 = id).map fun a => agree a.1 q).sum

/-- **A run of `AddFeature` calls** adds to the hits of each id its agreement. -/
theorem hits_addAll {ρ : Type} (adds : List (List UInt64 × ℕ)) : ∀ {idx : BestFitIndex}, Ready idx →
    (∀ a ∈ adds, a.1.length = 12) → ∃ idx', addAll ρ adds idx = some idx' ∧ Ready idx' ∧
      ∀ id q, hits id idx'.index q = hits id idx.index q + agreeUnder adds q id := by
  induction adds with
  | nil =>
    intro idx hidx _
    exact ⟨idx, rfl, hidx, fun id q => rfl⟩
  | cons a adds ih =>
    intro idx hidx hlen
    obtain ⟨v, i⟩ := a
    have hv : v.length = 12 := hlen (v, i) List.mem_cons_self
    have hl : idx.index.length = v.length := hidx.trans hv.symm
    have hready : Ready { idx with index := pushed i v idx.index } := by
      have hix : idx.index.length = 12 := hidx
      simp [Ready, pushed, hv, hix]
    obtain ⟨idx', hall, hready', hhits⟩ := ih hready fun a ha => hlen a (List.mem_cons_of_mem _ ha)
    refine ⟨idx', ?_, hready', fun id q => ?_⟩
    · unfold addAll at hall ⊢
      rw [List.foldlM_cons, addFeature, pushLoop_ok i hl]
      exact hall
    · rw [hhits, hits_pushed i id q hl]
      unfold agreeUnder
      by_cases hi : i = id
      · simp [hi, agree, Nat.add_assoc]
      · have hi' : ¬id = i := fun h => hi h.symm
        simp [hi, hi']

/-- With different ids, the agreement under an id is that of its vector. -/
theorem agreeUnder_eq {adds : List (List UInt64 × ℕ)} (hids : (adds.map Prod.snd).Nodup) {v : List UInt64} {id : ℕ}
    (hmem : (v, id) ∈ adds) (q : List UInt64) : agreeUnder adds q id = agree v q := by
  have hfilter : (adds.filter fun a => a.2 = id) = [(v, id)] := by
    induction adds with
    | nil => cases hmem
    | cons a adds ih =>
      obtain ⟨hnot, hids⟩ := List.nodup_cons.1 hids
      rcases List.mem_cons.1 hmem with rfl | hmem
      · have hnone : (adds.filter fun a => a.2 = id) = [] := by
          rw [List.filter_eq_nil_iff]
          intro a ha
          rw [decide_eq_true_iff]
          intro heq
          exact hnot (List.mem_map.2 ⟨a, ha, heq⟩)
        rw [List.filter_cons_of_pos (by simp), hnone]
      · have hne : ¬a.2 = id := by
          intro heq
          exact hnot (List.mem_map.2 ⟨_, hmem, heq.symm⟩)
        rw [List.filter_cons_of_neg (by simpa using hne), ih hids hmem]
  rw [agreeUnder, hfilter, List.map_singleton, List.sum_singleton]

/-- An id with an agreement was added. -/
theorem exists_of_agreeUnder {adds : List (List UInt64 × ℕ)} {q : List UInt64} {id : ℕ}
    (h : 0 < agreeUnder adds q id) : ∃ v, (v, id) ∈ adds := by
  by_contra hno
  have hnil : (adds.filter fun a => a.2 = id) = [] := by
    rw [List.filter_eq_nil_iff]
    intro a ha
    rw [decide_eq_true_iff]
    rintro rfl
    exact hno ⟨a.1, ha⟩
  rw [agreeUnder, hnil] at h
  exact absurd h (Nat.lt_irrefl 0)

theorem hits_new (order : IterOrder (ℕ × ℕ)) (id n : ℕ) (q : List UInt64) : hits id (new order n).index q = 0 := by
  unfold new
  induction n generalizing q with
  | zero => rfl
  | succ n ih =>
    cases q with
    | nil => rfl
    | cons w q =>
      rw [List.replicate_succ, hits, ih q]
      rfl

end BestFitIndex

open BestFitIndex in
/-- **`BestFitIndex` answers a best match**, whatever the order of the loop over `match_count`; nothing
exactly when no vector agrees in 4 positions. -/
theorem best_match {ρ : Type} (order : IterOrder (ℕ × ℕ)) (adds : List (List UInt64 × ℕ))
    (hlen : ∀ a ∈ adds, a.1.length = 12) (hids : (adds.map Prod.snd).Nodup) (q : List UInt64) (hq : q.length = 12) :
    ∃ idx o, addAll ρ adds (new order 12) = some idx ∧ getBaseChunkID (.words q : Feature ρ) idx = some o ∧
      (∀ id, o = some id → ∃ v, (v, id) ∈ adds ∧ 4 ≤ agree v q ∧ ∀ a ∈ adds, agree a.1 q ≤ agree v q) ∧
      (o = none ↔ ∀ a ∈ adds, agree a.1 q < 4) := by
  obtain ⟨idx, hidx, hready, hhits⟩ := hits_addAll (ρ := ρ) adds (ready_new order) hlen
  obtain ⟨o, ho, hsome, hbest⟩ := getBaseChunkID_ok (ρ := ρ) (hready.trans hq.symm)
  have hunder : ∀ id, hits id idx.index q = agreeUnder adds q id := by
    intro id
    rw [hhits, hits_new, Nat.zero_add]
  have hadded : ∀ a ∈ adds, hits a.2 idx.index q = agree a.1 q := by
    intro a ha
    rw [hunder, agreeUnder_eq hids ha]
  -- an id with hits was added, and its hits are the agreement of its vector
  have hfound : ∀ id, 4 ≤ hits id idx.index q → ∃ v, (v, id) ∈ adds ∧ hits id idx.index q = agree v q := by
    intro id hfour
    have hpos : 0 < agreeUnder adds q id := by
      rw [← hunder]
      omega
    obtain ⟨v, hv⟩ := exists_of_agreeUnder hpos
    exact ⟨v, hv, hadded (v, id) hv⟩
  refine ⟨idx, o, hidx, ho, fun id hid => ?_, ?_⟩
  · obtain ⟨hfour, hmost⟩ := hbest id hid
    obtain ⟨v, hv, heq⟩ := hfound id hfour
    refine ⟨v, hv, by rw [← heq]; exact hfour, fun a ha => ?_⟩
    calc agree a.1 q = hits a.2 idx.index q := (hadded a ha).symm
      _ ≤ hits id idx.index q := hmost a.2
      _ = agree v q := heq
  · rw [← Option.not_isSome_iff_eq_none, hsome]
    push Not
    constructor
    · intro hno a ha
      rw [← hadded a ha]
      exact hno a.2
    · intro hno id
      by_contra hge
      obtain ⟨v, hv, heq⟩ := hfound id (Nat.le_of_not_lt hge)
      have hlt : agree v q < 4 := hno (v, id) hv
      omega

/-- Two vectors, one with 4 positions in common and one with 5. -/
theorem best_match_two : ∃ idx,
    BestFitIndex.addAll ℚ [([1, 2, 3, 4, 0, 0, 0, 0, 0, 0, 0, 0], 7), ([1, 2, 3, 4, 5, 0, 0, 0, 0, 0, 0, 0], 9)]
      (.new (.byInsertion _) 12) = some idx ∧
    BestFitIndex.getBaseChunkID (.words [1, 2, 3, 4, 5, 6, 7, 8, 9, 10, 11, 12] : Feature ℚ) idx = some (some 9) := by
  obtain ⟨idx, o, hidx, ho, hbest, hnone⟩ := best_match (ρ := ℚ) (.byInsertion _)
    [([1, 2, 3, 4, 0, 0, 0, 0, 0, 0, 0, 0], 7), ([1, 2, 3, 4, 5, 0, 0, 0, 0, 0, 0, 0], 9)] (by simp) (by simp)
    [1, 2, 3, 4, 5, 6, 7, 8, 9, 10, 11, 12] rfl
  refine ⟨idx, hidx, ?_⟩
  rw [ho]
  cases o with
  | none => exact absurd (hnone.1 rfl) (by decide)
  | some id =>
    obtain ⟨v, hv, -, hmost⟩ := hbest id rfl
    have hle := hmost _ (List.mem_cons_of_mem _ List.mem_cons_self)
    rcases List.mem_cons.1 hv with heq | hv
    · obtain ⟨rfl, rfl⟩ := Prod.mk.inj heq
      exact absurd hle (by decide)
    · obtain ⟨rfl, rfl⟩ := Prod.mk.inj (List.mem_singleton.1 hv)
      rfl

end ChunkGrouping
