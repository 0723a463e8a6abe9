import ChunkGrouping.Proof.IndexLaws

/-!
# `BestFitIndex` is lawful

Whatever the order in which the loop over `match_count` meets its entries.

* `matchLoop_ok`: `match_count` holds the hits of every id.
* `getBaseChunkID_ok`: the id with the most hits, from 4 on.
-/

namespace ChunkGrouping

open InsertMap

/-! ## `BestFitIndex` -/

namespace BestFitIndex

/-- The number of positions at which `id` is listed under the query's feature. -/
def hits (id : ℕ) : List (Entries UInt64 (List ℕ)) → List UInt64 → ℕ
  | m :: index, w :: ws => ((get? w m).getD []).count id + hits id index ws
  | _, _ => 0

/-- The ids in the lists. -/
def IdIn (index : List (Entries UInt64 (List ℕ))) (id : ℕ) : Prop := ∃ m ∈ index, ∃ e ∈ m, id ∈ e.2

theorem idIn_of_hits {id : ℕ} {index : List (Entries UInt64 (List ℕ))} {ws : List UInt64}
    (h : 0 < hits id index ws) : IdIn index id := by
  induction index generalizing ws with
  | nil => simp [hits] at h
  | cons m index ih =>
    cases ws with
    | nil => simp [hits] at h
    | cons w ws =>
      by_cases hc : 0 < ((get? w m).getD []).count id
      · cases hw : get? w m with
        | none => simp [hw] at hc
        | some ids =>
          obtain ⟨e, he, rfl⟩ := mem_of_get? hw
          exact ⟨m, List.mem_cons_self, e, he, List.count_pos_iff.1 (by simpa [hw] using hc)⟩
      · obtain ⟨m', hm', h'⟩ := ih (show 0 < hits id index ws by simp only [hits] at h; omega)
        exact ⟨m', List.mem_cons_of_mem _ hm', h'⟩

/-- **Counting a list.** -/
theorem countAll_ok (ids : List ℕ) (mc : Entries ℕ ℕ) (hm : (mc.map Prod.fst).Nodup) :
    ((countAll ids mc).map Prod.fst).Nodup ∧
      ∀ id, (get? id (countAll ids mc)).getD 0 = (get? id mc).getD 0 + ids.count id := by
  induction ids generalizing mc with
  | nil => exact ⟨hm, fun id => by simp [countAll]⟩
  | cons x ids ih =>
    obtain ⟨hnd, hget⟩ := ih (alter x 0 (· + 1) mc) (nodup_alter x 0 _ hm)
    refine ⟨hnd, fun id => (hget id).trans ?_⟩
    rw [get?_alter, List.count_cons]
    by_cases hx : x = id
    · subst hx; simp; omega
    · simp [hx]

/-- **`match_count`**: the hits of every id. -/
theorem matchLoop_ok {index : List (Entries UInt64 (List ℕ))} {ws : List UInt64}
    (h : index.length = ws.length) (mc : Entries ℕ ℕ) (hm : (mc.map Prod.fst).Nodup) :
    ∃ mc', matchLoop index ws mc = some mc' ∧ (mc'.map Prod.fst).Nodup ∧
      ∀ id, (get? id mc').getD 0 = (get? id mc).getD 0 + hits id index ws := by
  induction index generalizing ws mc with
  | nil => exact ⟨mc, rfl, hm, fun id => by simp [hits]⟩
  | cons m index ih =>
    obtain ⟨w, ws, rfl⟩ := List.exists_cons_of_length_eq_add_one h.symm
    obtain ⟨hnd, hget⟩ := countAll_ok ((get? w m).getD []) mc hm
    obtain ⟨mc', he, hnd', hget'⟩ := ih (by simpa using h : index.length = ws.length) _ hnd
    refine ⟨mc', he, hnd', fun id => ?_⟩
    rw [hget' id, hget id, hits, Nat.add_assoc]

/-- **`max_match`** is the largest count, and `max_match_id` has it. -/
theorem bestLoop_ok (entries : List (ℕ × ℕ)) (best : ℕ × ℕ) :
    let r := entries.foldl (fun best e => if best.2 < e.2 then e else best) best
    (r = best ∨ r ∈ entries) ∧ best.2 ≤ r.2 ∧ ∀ e ∈ entries, e.2 ≤ r.2 := by
  induction entries generalizing best with
  | nil => exact ⟨.inl rfl, le_refl _, by simp⟩
  | cons e entries ih =>
    obtain ⟨hmem, hle, hall⟩ := ih (if best.2 < e.2 then e else best)
    rw [List.foldl_cons]
    refine ⟨?_, ?_, ?_⟩
    · rcases hmem with hmem | hmem
      · rw [hmem]
        split
        · exact .inr List.mem_cons_self
        · exact .inl rfl
      · exact .inr (List.mem_cons_of_mem _ hmem)
    · refine le_trans ?_ hle
      split <;> omega
    · intro e' he'
      rcases List.mem_cons.1 he' with rfl | he'
      · refine le_trans ?_ hle
        split <;> omega
      · exact hall e' he'

/-- **The lookup**: an id with the most hits, if these are at least 4. -/
theorem getBaseChunkID_ok {ρ : Type} {idx : BestFitIndex} {ws : List UInt64}
    (h : idx.index.length = ws.length) :
    ∃ o, getBaseChunkID (.words ws : Feature ρ) idx = some o ∧
      (o.isSome ↔ ∃ id, 4 ≤ hits id idx.index ws) ∧
      ∀ id, o = some id → 4 ≤ hits id idx.index ws ∧ ∀ id', hits id' idx.index ws ≤ hits id idx.index ws := by
  obtain ⟨mc, hmc, hnd, hget⟩ := matchLoop_ok h [] (by simp)
  have hhits : ∀ id, hits id idx.index ws = (get? id mc).getD 0 := fun id => by simp [hget, get?]
  obtain ⟨hmem, -, hall⟩ := bestLoop_ok (idx.order.iter mc) (2 ^ 32 - 1, 0)
  set r := (idx.order.iter mc).foldl (fun best e => if best.2 < e.2 then e else best) (2 ^ 32 - 1, 0)
  -- an id without an entry has no hits
  have hle : ∀ id, hits id idx.index ws ≤ r.2 := by
    intro id
    rw [hhits]
    cases hid : get? id mc with
    | none => simp
    | some n =>
      exact hall (id, n) ((idx.order.perm mc).mem_iff.2 ((get?_eq_some_iff hnd).1 hid))
  have hr : 0 < r.2 → hits r.1 idx.index ws = r.2 := by
    intro hpos
    rcases hmem with hmem | hmem
    · rw [hmem] at hpos; exact absurd hpos (by simp)
    · rw [hhits, (get?_eq_some_iff hnd).2 ((idx.order.perm mc).mem_iff.1 hmem)]; rfl
  -- with no match at all the fold is where it started
  have hget? : getBaseChunkID (.words ws : Feature ρ) idx =
      some (if r.2 < 4 then none else some r.1) := by
    simp only [getBaseChunkID, hmc, Option.bind_eq_bind, Option.bind_some, bestLoop]
    cases mc with
    | nil =>
      have : r.2 = 0 := by
        rcases hmem with hmem | hmem
        · rw [hmem]
        · exact absurd ((idx.order.perm []).mem_iff.1 hmem) (by simp)
      simp [this]
    | cons e mc =>
      simp only [List.isEmpty_cons, Bool.false_eq_true, if_false]
      change (if r.2 < 4 then some none else some (some r.1)) = _
      by_cases h4 : r.2 < 4 <;> simp [h4]
  refine ⟨_, hget?, ?_, ?_⟩
  · by_cases h4 : r.2 < 4
    · simp only [if_pos h4, Option.isSome_none, Bool.false_eq_true, false_iff, not_exists, not_le]
      exact fun id => lt_of_le_of_lt (hle id) h4
    · simp only [if_neg h4, Option.isSome_some, true_iff]
      exact ⟨r.1, by rw [hr (by omega)]; omega⟩
  · intro id hid
    by_cases h4 : r.2 < 4
    · simp [h4] at hid
    · obtain rfl : r.1 = id := by simpa [h4] using hid
      rw [hr (by omega)]
      exact ⟨by omega, hle⟩

/-- The maps with `id` listed under the features `ws`. -/
def pushed (id : ℕ) (ws : List UInt64) (index : List (Entries UInt64 (List ℕ))) :
    List (Entries UInt64 (List ℕ)) :=
  List.zipWith (fun w m => alter w [] (· ++ [id]) m) ws index

theorem pushLoop_ok (id : ℕ) {index : List (Entries UInt64 (List ℕ))} {ws : List UInt64}
    (h : index.length = ws.length) : pushLoop id index ws = some (pushed id ws index) := by
  induction index generalizing ws with
  | nil => obtain rfl := List.length_eq_zero_iff.1 h.symm; rfl
  | cons m index ih =>
    obtain ⟨w, ws, rfl⟩ := List.exists_cons_of_length_eq_add_one h.symm
    simp [pushLoop, ih (by simpa using h : index.length = ws.length), pushed]

/-- **The hits after an `AddFeature`**: one more for its id at every position that agrees. -/
theorem hits_pushed (id x : ℕ) {index : List (Entries UInt64 (List ℕ))} {vs : List UInt64} (ws : List UInt64)
    (h : index.length = vs.length) :
    hits x (pushed id vs index) ws =
      hits x index ws + if x = id then (List.zip vs ws).countP (fun p => p.1 == p.2) else 0 := by
  induction index generalizing vs ws with
  | nil => obtain rfl := List.length_eq_zero_iff.1 h.symm; simp [pushed, hits]
  | cons m index ih =>
    obtain ⟨v, vs, rfl⟩ := List.exists_cons_of_length_eq_add_one h.symm
    cases ws with
    | nil => simp [hits]
    | cons w ws =>
      have hi := ih ws (by simpa using h : index.length = vs.length)
      simp only [pushed] at hi
      simp only [pushed, List.zipWith_cons_cons, hits, hi, get?_alter, List.zip_cons_cons, List.countP_cons]
      by_cases hv : v = w
      · subst hv
        by_cases hx : x = id
        · subst hx; simp; omega
        · have : ¬ id = x := fun he => hx he.symm
          simp [hx, this]
      · simp [hv]; omega

theorem idIn_pushed {id x : ℕ} {index : List (Entries UInt64 (List ℕ))} {ws : List UInt64}
    (h : IdIn (pushed id ws index) x) : IdIn index x ∨ x = id := by
  induction index generalizing ws with
  | nil => simp [IdIn, pushed] at h
  | cons m index ih =>
    cases ws with
    | nil => simp [IdIn, pushed] at h
    | cons w ws =>
      obtain ⟨m', hm', e, he, hx⟩ := h
      rw [pushed, List.zipWith_cons_cons] at hm'
      rcases List.mem_cons.1 hm' with rfl | hm'
      · rcases snd_of_mem_alter he with ⟨e', he', hv⟩ | ⟨e', he', hv⟩ | hv
        · exact .inl ⟨m, List.mem_cons_self, e', he', by rw [hv]; exact hx⟩
        · rw [hv] at hx
          rcases List.mem_append.1 hx with hx | hx
          · exact .inl ⟨m, List.mem_cons_self, e', he', hx⟩
          · exact .inr (List.mem_singleton.1 hx)
        · rw [hv] at hx
          exact .inr (List.mem_singleton.1 hx)
      · rcases ih ⟨m', hm', e, he, hx⟩ with ⟨m₁, hm₁, hx⟩ | hx
        · exact .inl ⟨m₁, List.mem_cons_of_mem _ hm₁, hx⟩
        · exact .inr hx

/-- The 12 maps are there. -/
def Ready (idx : BestFitIndex) : Prop := idx.index.length = 12

/-- A feature as `OdessSubfeatures` makes it. -/
def Fits {ρ : Type} (f : Feature ρ) : Prop := ∃ ws, f = .words ws ∧ ws.length = 12

instance {ρ : Type} : LawfulIndex BestFitIndex (Feature ρ) where
  Ready := Ready
  Fits := Fits
  known idx := IdIn idx.index
  get_ok := by
    rintro idx f h ⟨ws, rfl, hw⟩
    obtain ⟨o, ho, -, hbest⟩ := getBaseChunkID_ok (ρ := ρ) (h.trans hw.symm)
    refine ⟨o, ho, fun id hid => idIn_of_hits (?_ : 0 < hits id idx.index ws)⟩
    have := (hbest id hid).1
    omega
  add_ok := by
    rintro idx f id h ⟨ws, rfl, hw⟩
    have hl := h.trans hw.symm
    have hr : Ready { idx with index := pushed id ws idx.index } := by
      simp [Ready, pushed, hw, show idx.index.length = 12 from h]
    refine ⟨{ idx with index := pushed id ws idx.index },
      by simp [Index.addFeature, addFeature, pushLoop_ok id hl], hr, fun x hx => idIn_pushed hx, ?_, ?_⟩
    · obtain ⟨o, ho, hs, -⟩ := getBaseChunkID_ok (ρ := ρ) (hr.trans hw.symm)
      have hself : (List.zip ws ws).countP (fun p => p.1 == p.2) = ws.length := by
        rw [List.countP_eq_length.2]
        · simp
        · intro p hp
          obtain ⟨i, hi, rfl⟩ := List.mem_iff_getElem.1 hp
          simp
      obtain ⟨b, hb⟩ := Option.isSome_iff_exists.1 (hs.2 ⟨id, by
        simp only [hits_pushed id id ws hl, if_true, hself]; omega⟩)
      exact ⟨b, by rw [← hb]; exact ho⟩
    · rintro g b ⟨vs, rfl, hv⟩ hg
      obtain ⟨o, ho, hs, -⟩ := getBaseChunkID_ok (ρ := ρ) (h.trans hv.symm)
      obtain rfl : o = some b := Option.some.inj (ho.symm.trans hg)
      obtain ⟨o', ho', hs', -⟩ := getBaseChunkID_ok (ρ := ρ) (hr.trans hv.symm)
      obtain ⟨x, hx⟩ := hs.1 rfl
      obtain ⟨b', hb'⟩ := Option.isSome_iff_exists.1 (hs'.2 ⟨x, by
        rw [hits_pushed id x vs hl]; omega⟩)
      exact ⟨b', by rw [← hb']; exact ho'⟩

theorem ready_new (order : IterOrder (ℕ × ℕ)) : Ready (new order 12) := by simp [Ready, new]

theorem not_known_new (order : IterOrder (ℕ × ℕ)) (id : ℕ) : ¬ IdIn (new order 12).index id := by
  simp [IdIn, new]

end BestFitIndex

/-! ## The sub-features of a chunk -/

namespace OdessSubfeatures

theorem length_loop (bytes : List UInt8) (fp : UInt32) (subFeatures : List UInt64)
    (h : subFeatures.length = 12) : (loop bytes fp subFeatures).length = 12 := by
  induction bytes generalizing fp subFeatures with
  | nil => exact h
  | cons b bytes ih =>
    dsimp only [loop]
    split
    · exact ih _ _ (by simp [sample, h, Features.M, Features.A])
    · exact ih _ _ h

theorem fits_call {ρ : Type} (chunk : Chunk) : BestFitIndex.Fits (call chunk : Feature ρ) :=
  ⟨_, rfl, length_loop _ _ _ (by simp)⟩

end OdessSubfeatures

/-- `bestfit`: `OdessSubfeatures` and `BestFitIndex`. -/
def FeatureIndex.bestfit {ρ : Type} (order : IterOrder (ℕ × ℕ)) : FeatureIndex BestFitIndex (Feature ρ) where
  feature := OdessSubfeatures.call
  index := .new order 12
  fits := OdessSubfeatures.fits_call
  ready := BestFitIndex.ready_new order
  empty := BestFitIndex.not_known_new order
  content c c' h := by simp only [OdessSubfeatures.call, OdessSubfeatures.subFeatures, h]

end ChunkGrouping
