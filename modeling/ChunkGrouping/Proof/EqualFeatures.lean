import ChunkGrouping.Proof.FeaturePairs
import ChunkGrouping.Proof.PalantirSearch

/-!
# Equal features and their groups

A chunk that misses is a group of its own; one that matches is in the group of the base id it
got. An index is added to on a miss only, so no two features in it have a super-feature in
common. Still, between two equal features one can be added that has a super-feature in
common with them at an earlier place than they matched at: it captures the second of them.

* `valueLoop_ok`: every answer is that of the search of what has missed before.
* `RunLaw.together`: two equal features are in one group unless the second is captured;
  `RunLaw.apart`: then they are not; `group_eq_of_unchanged` for an index that did not change.
* `classify_palantir`: the loop over the features is the loop of the pair over the chunks.
-/

namespace ChunkGrouping

open InsertMap FirstFit PalantirIndex

variable {ρ : Type}

/-- A feature, the id of its chunk and what the lookup answered. -/
abbrev Classified (ρ : Type) := (PalantirValue ρ × ℕ) × Option ℕ

/-- The group of a chunk. -/
def Classified.group (x : Classified ρ) : ℕ := x.2.getD x.1.2

/-- What was added. -/
def missed (run : List (Classified ρ)) : List (PalantirValue ρ × ℕ) :=
  (run.filter fun x => x.2.isNone).map Prod.fst

/-- `g` has a super-feature of `f`, at a position up to which nothing in `before` has one. -/
def Captures (before : List (PalantirValue ρ × ℕ)) (f g : PalantirValue ρ) : Prop :=
  ∃ k < 13, g.keys[k]? = f.keys[k]? ∧ ∀ j ≤ k, ∀ e ∈ before, e.1.keys[j]? ≠ f.keys[j]?

/-- Something in `before` has a super-feature of `f`. -/
def Shares (before : List (PalantirValue ρ × ℕ)) (f : PalantirValue ρ) : Prop :=
  ∃ e ∈ before, ∃ k < 13, e.1.keys[k]? = f.keys[k]?

/-- At most one in `h` has a ratio near that of `f`. -/
def OneNear [Ratio ρ] (h : List (PalantirValue ρ × ℕ)) (f : PalantirValue ρ) : Prop :=
  ∀ e ∈ h, ∀ e' ∈ h, Ratio.near e.1.ratio f.ratio = true → Ratio.near e'.1.ratio f.ratio = true → e = e'

theorem missed_append (run run' : List (Classified ρ)) : missed (run ++ run') = missed run ++ missed run' := by
  simp [missed]

@[simp] theorem missed_nil : missed ([] : List (Classified ρ)) = [] := rfl
@[simp] theorem missed_cons_none (v : PalantirValue ρ × ℕ) (run : List (Classified ρ)) :
    missed ((v, none) :: run) = v :: missed run := rfl
@[simp] theorem missed_cons_some (v : PalantirValue ρ × ℕ) (b : ℕ) (run : List (Classified ρ)) :
    missed ((v, some b) :: run) = missed run := rfl

/-- Whoever missed is in the index now. -/
theorem missed_of_none {x : Classified ρ} (h : x.2 = none) : missed [x] = [x.1] := by
  obtain ⟨v, o⟩ := x
  obtain rfl : o = none := h
  rfl

/-- Whoever matched is not. -/
theorem missed_of_some {x : Classified ρ} {b : ℕ} (h : x.2 = some b) : missed [x] = [] := by
  obtain ⟨v, o⟩ := x
  obtain rfl : o = some b := h
  rfl

variable [Ratio ρ] [BEq ρ] [LawfulBEq ρ]

/-! ## The run -/

/-- The loop over the features. -/
def valueLoop (vs : List (PalantirValue ρ × ℕ)) (idx : PalantirIndex ρ) : Option (List (Option ℕ)) :=
  pairLoop (fun v => some v.1.toFeature) Prod.snd vs idx

/-- **The loop**: every answer is that of the search of what was there and what has missed since. -/
theorem valueLoop_ok (vs : List (PalantirValue ρ × ℕ)) : ∀ {h : List (PalantirValue ρ × ℕ)} {idx : PalantirIndex ρ},
    Holds h idx → ∃ os, valueLoop vs idx = some os ∧ os.length = vs.length ∧
      ∀ p x, (vs.zip os)[p]? = some x → IsAnswer (h ++ missed ((vs.zip os).take p)) x.1.1 x.2 := by
  induction vs with
  | nil =>
    intro h idx _
    exact ⟨[], rfl, rfl, fun p x hx => by simp at hx⟩
  | cons v vs ih =>
    intro h idx hh
    obtain ⟨o, ho, ha⟩ := hh.lookup v.1
    have hget : Index.getBaseChunkID v.1.toFeature idx = some o := ho
    cases o with
    -- a hit is not added: the rest runs on the same index
    | some b =>
      obtain ⟨os, hos, hlen, hrun⟩ := ih hh
      refine ⟨some b :: os, ?_, by simp [hlen], fun p x hx => ?_⟩
      · rw [valueLoop, pairLoop, Option.bind_eq_bind, Option.bind_some, hget]
        simp only [Option.bind_some, Option.bind_eq_bind, show pairLoop _ _ vs _ = some os from hos]
      · rcases p with _ | p
        · obtain rfl := Option.some.inj hx
          simpa using ha
        · exact hrun p x hx
    | none =>
      obtain ⟨idx', hadd, hh'⟩ := hh.add v.1 v.2
      have hadd' : Index.addFeature v.1.toFeature v.2 idx = some idx' := hadd
      obtain ⟨os, hos, hlen, hrun⟩ := ih hh'
      refine ⟨none :: os, ?_, by simp [hlen], fun p x hx => ?_⟩
      · rw [valueLoop, pairLoop, Option.bind_eq_bind, Option.bind_some, hget]
        simp only [Option.bind_some, Option.bind_eq_bind, hadd', show pairLoop _ _ vs _ = some os from hos]
      · rcases p with _ | p
        · obtain rfl := Option.some.inj hx
          simpa using ha
        · have hx' := hrun p x hx
          rwa [List.append_assoc] at hx'

/-- Adding one after the other. -/
def addMissed (h : List (PalantirValue ρ × ℕ)) (idx : PalantirIndex ρ) : Option (PalantirIndex ρ) :=
  h.foldlM (fun idx v => Index.addFeature v.1.toFeature v.2 idx) idx

omit [LawfulBEq ρ] in
/-- **Every answer is read off** the index to which all that has missed before was added. -/
theorem valueLoop_reads (vs : List (PalantirValue ρ × ℕ)) {idx : PalantirIndex ρ} {os : List (Option ℕ)}
    (hos : valueLoop vs idx = some os) {p : ℕ} {x : Classified ρ} (hx : (vs.zip os)[p]? = some x) :
    ∃ idx', addMissed (missed ((vs.zip os).take p)) idx = some idx' ∧
      Index.getBaseChunkID x.1.1.toFeature idx' = some x.2 := by
  induction vs generalizing idx os p with
  | nil => simp at hx
  | cons v vs ih =>
    rw [valueLoop, pairLoop, Option.bind_eq_bind, Option.bind_some] at hos
    obtain ⟨o, hget, hos⟩ := Option.bind_eq_some_iff.1 hos
    cases o with
    | some b =>
      obtain ⟨os', hrest, hcons⟩ := Option.bind_eq_some_iff.1 hos
      obtain rfl := Option.some.inj hcons
      rcases p with _ | p
      · obtain rfl := Option.some.inj hx
        exact ⟨idx, rfl, hget⟩
      · exact ih hrest hx
    | none =>
      obtain ⟨idx', hadd, hos⟩ := Option.bind_eq_some_iff.1 hos
      obtain ⟨os', hrest, hcons⟩ := Option.bind_eq_some_iff.1 hos
      obtain rfl := Option.some.inj hcons
      rcases p with _ | p
      · obtain rfl := Option.some.inj hx
        exact ⟨idx, rfl, hget⟩
      · obtain ⟨idx'', hall, hget'⟩ := ih hrest hx
        exact ⟨idx'', Option.bind_eq_some_iff.2 ⟨idx', hadd, hall⟩, hget'⟩

/-- Every answer is that of the search of what has missed before. -/
def RunLaw (run : List (Classified ρ)) : Prop :=
  ∀ p x, run[p]? = some x → IsAnswer (missed (run.take p)) x.1.1 x.2

variable {run : List (Classified ρ)} {h : List (PalantirValue ρ × ℕ)} {p q : ℕ} {x y : Classified ρ}

omit [LawfulBEq ρ] in
/-- A match of a super-feature, of a ratio, or a miss. -/
theorem IsAnswer.cases {f : PalantirValue ρ} {o : Option ℕ} (ha : IsAnswer h f o) :
    (∃ b, search (wordHistory h) f.keys = some b ∧ o = some b) ∨
      (search (wordHistory h) f.keys = none ∧
        ((∃ e ∈ h, Ratio.near e.1.ratio f.ratio = true ∧ o = latest 0 [e.1.ratio] (ratioHistory h)) ∨
          ((∀ e ∈ h, Ratio.near e.1.ratio f.ratio = false) ∧ o = none))) := by
  unfold IsAnswer at ha
  split at ha
  · rename_i b hs
    exact .inl ⟨b, hs, ha⟩
  · rename_i hs
    exact .inr ⟨hs, ha⟩

omit [LawfulBEq ρ] in
theorem IsAnswer.eq_of_search {f : PalantirValue ρ} {o : Option ℕ} (ha : IsAnswer h f o) {b : ℕ}
    (hs : search (wordHistory h) f.keys = some b) : o = some b := by
  unfold IsAnswer at ha
  rwa [hs] at ha

omit [Ratio ρ] [BEq ρ] [LawfulBEq ρ] in
/-- What was added up to `q`: before `p`, at `p`, and in between. -/
theorem missed_take (hx : run[p]? = some x) (hpq : p < q) :
    missed (run.take q) = missed (run.take p) ++ missed [x] ++ missed ((run.take q).drop (p + 1)) := by
  have hlen : p < run.length := (List.getElem?_eq_some_iff.1 hx).1
  have htake : (run.take q).take (p + 1) = run.take p ++ [x] := by
    rw [List.take_take, Nat.min_eq_left (by omega), List.take_add_one, hx]
    rfl
  rw [← missed_append, ← htake, ← missed_append, List.take_append_drop]

omit [Ratio ρ] [BEq ρ] [LawfulBEq ρ] in
theorem mem_wordHistory {e : List UInt64 × ℕ} : e ∈ wordHistory h ↔ ∃ z ∈ h, (z.1.keys, z.2) = e := List.mem_map

omit [Ratio ρ] [BEq ρ] [LawfulBEq ρ] in
theorem wordHistory_append (h h' : List (PalantirValue ρ × ℕ)) :
    wordHistory (h ++ h') = wordHistory h ++ wordHistory h' := List.map_append

/-- **What has missed is spaced.** -/
theorem RunLaw.spaced (hr : RunLaw run) (q : ℕ) : Spaced 13 (wordHistory (missed (run.take q))) := by
  induction q with
  | zero => exact List.Pairwise.nil
  | succ q ih =>
    rcases hx : run[q]? with _ | x
    · rw [List.take_add_one, hx, Option.toList_none, List.append_nil]
      exact ih
    · rw [List.take_add_one, hx, Option.toList_some, missed_append, wordHistory_append]
      obtain ⟨v, o⟩ := x
      cases o with
      | some b =>
        rw [missed_cons_some]
        simpa [wordHistory] using ih
      | none =>
        -- it missed, so it shares nothing with what is there
        refine ih.concat v.1.length_keys (search_eq_none_iff.2 fun k hk e he => ?_) v.2
        obtain ⟨z, hz, rfl⟩ := mem_wordHistory.1 he
        exact ((hr q _ hx).not_shared z hz).1 k (by rwa [v.1.length_keys] at hk)

omit [Ratio ρ] [BEq ρ] [LawfulBEq ρ] in
/-- The ids of what has missed are different. -/
theorem nodup_missed (hids : (run.map fun x => x.1.2).Nodup) (q : ℕ) :
    ((missed (run.take q)).map Prod.snd).Nodup := by
  refine hids.sublist ?_
  rw [missed, List.map_map]
  exact (List.filter_sublist.trans (List.take_sublist q run)).map _

/-! ## Two equal features -/

/-- **Captured**: in a group of its own or of one that came in between. -/
theorem RunLaw.apart (hr : RunLaw run) (hids : (run.map fun x => x.1.2).Nodup) (hpq : p < q)
    (hx : run[p]? = some x) (hy : run[q]? = some y) (hf : x.1.1 = y.1.1)
    (hc : ∃ z ∈ missed ((run.take q).drop (p + 1)), Captures (missed (run.take p)) x.1.1 z.1) :
    y.group ≠ x.group := by
  obtain ⟨z, hz, k, hk, hag, hfirst⟩ := hc
  have hmissed := missed_take hx hpq
  have hnd := nodup_missed hids q
  rw [hmissed] at hnd
  have hkey : k < y.1.1.keys.length := by rwa [y.1.1.length_keys]
  rcases hxo : x.2 with _ | b
  · -- it is in the index itself, and nothing added later shares with it
    have hs := hr.spaced q
    rw [hmissed, missed_of_none hxo, wordHistory_append, wordHistory_append, List.append_assoc] at hs
    have hs' := List.pairwise_append.1 (List.pairwise_append.1 hs).2.1
    have hne := hs'.2.2 (x.1.1.keys, x.1.2) (mem_wordHistory.2 ⟨x.1, by simp, rfl⟩)
      (z.1.keys, z.2) (mem_wordHistory.2 ⟨z, hz, rfl⟩) k hk
    exact absurd hag.symm hne
  · rw [missed_of_some hxo, List.append_nil] at hmissed hnd
    -- the second finds one that came in between, the first one from before
    obtain ⟨e, he, hse⟩ := search_captured (h := wordHistory (missed (run.take p))) hkey
      (mem_wordHistory.2 ⟨z, hz, rfl⟩) (by rw [← hf]; exact hag) fun j hj e he => by
        obtain ⟨w, hw, rfl⟩ := mem_wordHistory.1 he
        rw [← hf]
        exact hfirst j hj w hw
    rw [← wordHistory_append, ← hmissed] at hse
    have hyb : y.group = e.2 := by rw [Classified.group, (hr q y hy).eq_of_search hse, Option.getD_some]
    have hxb : x.group = b := by rw [Classified.group, hxo, Option.getD_some]
    obtain ⟨w, hw, rfl⟩ := mem_wordHistory.1 he
    rw [hyb, hxb]
    rintro rfl
    rw [List.map_append] at hnd
    exact (List.nodup_append.1 hnd).2.2 _ ((hr p x hx).mem hxo) _ (List.mem_map_of_mem hw) rfl

/-- An answer by ratio is the id of one whose ratio is near. -/
theorem exists_near {f : PalantirValue ρ} {o : Option ℕ}
    (ha : ∃ e ∈ h, Ratio.near e.1.ratio f.ratio = true ∧ o = latest 0 [e.1.ratio] (ratioHistory h)) :
    ∃ e ∈ h, Ratio.near e.1.ratio f.ratio = true ∧ o = some e.2 := by
  obtain ⟨e, he, hnear, rfl⟩ := ha
  obtain ⟨b, hb⟩ := Option.isSome_iff_exists.1
    (latest_isSome_iff.2 ⟨_, List.mem_map_of_mem he, rfl⟩ : (latest 0 [e.1.ratio] (ratioHistory h)).isSome)
  obtain ⟨w, hw, hratio, rfl⟩ := mem_of_latest hb
  obtain ⟨z, hz, rfl⟩ := List.mem_map.1 hw
  have hr : z.1.ratio = e.1.ratio := Option.some.inj hratio
  exact ⟨z, hz, by rw [hr]; exact hnear, hb⟩

omit [Ratio ρ] [BEq ρ] [LawfulBEq ρ] in
/-- Nothing before has a super-feature of `f` and nothing in between captures it. -/
theorem search_between {before between : List (PalantirValue ρ × ℕ)} {f : PalantirValue ρ}
    (hsearch : search (wordHistory before) f.keys = none) (hc : ∀ z ∈ between, ¬Captures before f z.1) :
    search (wordHistory (before ++ between)) f.keys = none := by
  rw [search_eq_none_iff] at hsearch ⊢
  intro k hk e he
  obtain ⟨z, hz, rfl⟩ := mem_wordHistory.1 he
  rcases List.mem_append.1 hz with hz | hz
  · exact hsearch k hk _ (mem_wordHistory.2 ⟨z, hz, rfl⟩)
  · intro hag
    refine hc z hz ⟨k, by rwa [f.length_keys] at hk, hag, fun j hj w hw => ?_⟩
    exact hsearch j (by omega) _ (mem_wordHistory.2 ⟨w, hw, rfl⟩)

/-- **Not captured**: in one group. -/
theorem RunLaw.together (hr : RunLaw run) (hpq : p < q)
    (hx : run[p]? = some x) (hy : run[q]? = some y) (hf : x.1.1 = y.1.1)
    (hc : ∀ z ∈ missed ((run.take q).drop (p + 1)), ¬Captures (missed (run.take p)) x.1.1 z.1)
    (hn : x.2 = none ∨ Shares (missed (run.take p)) x.1.1 ∨ OneNear (missed (run.take q)) x.1.1) :
    y.group = x.group := by
  have hmissed := missed_take hx hpq
  have hs := hr.spaced q
  have hya := hr q y hy
  rcases hxo : x.2 with _ | b
  · have hmem : (x.1.1.keys, x.1.2) ∈ wordHistory (missed (run.take q)) := by
      rw [hmissed, missed_of_none hxo]
      exact mem_wordHistory.2 ⟨x.1, by simp, rfl⟩
    have hfound := hs.search_self (by decide) hmem x.1.1.length_keys
    rw [hf] at hfound
    rw [Classified.group, hya.eq_of_search hfound, Classified.group, hxo]
    rfl
  · rw [missed_of_some hxo, List.append_nil] at hmissed
    have hyb : y.2 = some b → y.group = x.group := by
      intro h
      rw [Classified.group, Classified.group, h, hxo]
      rfl
    apply hyb
    rcases (hr p x hx).cases with ⟨b', hsearch, hb'⟩ | ⟨hsearch, hratio⟩
    · -- the first matched a super-feature: the second finds it again
      obtain rfl : b = b' := Option.some.inj (hxo.symm.trans hb')
      obtain ⟨k, hk, hlatest, hno⟩ := search_eq_some_iff.1 hsearch
      rw [x.1.1.length_keys] at hk
      rw [hmissed, wordHistory_append] at hs
      have hagain := hs.search_append x.1.1.length_keys hk hlatest hno fun j hj e he hag => by
        obtain ⟨z, hz, rfl⟩ := mem_wordHistory.1 he
        exact hc z hz ⟨j, by omega, hag, fun i hi w hw => hno i (by omega) _ (mem_wordHistory.2 ⟨w, hw, rfl⟩)⟩
      rw [← wordHistory_append, ← hmissed, hf] at hagain
      exact hya.eq_of_search hagain
    · have hnone := search_between hsearch hc
      rw [← hmissed, hf] at hnone
      have hone : OneNear (missed (run.take q)) x.1.1 := by
        rcases hn with hn | ⟨e, he, k, hk, hag⟩ | hn
        · cases hxo.symm.trans hn
        · exact absurd hag (search_eq_none_iff.1 hsearch k (by rwa [x.1.1.length_keys]) _
            (mem_wordHistory.2 ⟨e, he, rfl⟩))
        · exact hn
      -- the first matched by its ratio
      obtain ⟨e, he, hnear, hb⟩ := exists_near (hratio.resolve_right fun h => by cases hxo.symm.trans h.2)
      have heq : e ∈ missed (run.take q) := by
        rw [hmissed]
        exact List.mem_append_left _ he
      rcases hya.cases with ⟨b', hsome, -⟩ | ⟨-, hyratio | ⟨hfar, -⟩⟩
      · cases hnone.symm.trans hsome
      · obtain ⟨e', he', hnear', hyb'⟩ := exists_near hyratio
        rw [← hf] at hnear'
        rw [hyb', ← hxo, hb, hone e heq e' he' hnear hnear']
      · have hno := hfar e heq
        rw [← hf, hnear] at hno
        cases hno

omit [LawfulBEq ρ] in
/-- **Nothing missed in between**: the second reads the index as the first one did, and gets its answer. -/
theorem group_eq_of_unchanged {idx : PalantirIndex ρ}
    (hread : ∀ {p x}, run[p]? = some x → ∃ idx', addMissed (missed (run.take p)) idx = some idx' ∧
      Index.getBaseChunkID x.1.1.toFeature idx' = some x.2) (hpq : p < q) (hx : run[p]? = some x)
    (hy : run[q]? = some y) (hf : x.1.1 = y.1.1) {b : ℕ} (hxo : x.2 = some b)
    (hnil : missed ((run.take q).drop (p + 1)) = []) : y.group = x.group := by
  have hmissed := missed_take hx hpq
  rw [missed_of_some hxo, hnil, List.append_nil, List.append_nil] at hmissed
  obtain ⟨idx₁, hadd₁, hget₁⟩ := hread hx
  obtain ⟨idx₂, hadd₂, hget₂⟩ := hread hy
  rw [hmissed, hadd₁] at hadd₂
  obtain rfl := Option.some.inj hadd₂
  rw [← hf, hget₁] at hget₂
  have ho : y.2 = some b := (Option.some.inj hget₂).symm.trans hxo
  rw [Classified.group, Classified.group, ho, hxo]
  rfl

/-! ## Any sequence of features -/

/-- The loop on a new index. -/
def palantirLoop (order : IterOrder (ρ × ℕ)) (vs : List (PalantirValue ρ × ℕ)) : Option (List (Option ℕ)) :=
  valueLoop vs (PalantirIndex.new order)

/-- What `PalantirFeature` makes of a chunk. -/
def PalantirFeature.value (chunk : Chunk) : PalantirValue ρ :=
  let sub := OdessSubfeatures.subFeatures chunk
  ⟨group sub 3 4, group sub 4 3, group sub 6 2, zeroCal chunk.buf, by simp [group], by simp [group], by simp [group]⟩

omit [Ratio ρ] [BEq ρ] [LawfulBEq ρ] in
/-- The loop reads no more of an item than its feature and its id. -/
theorem pairLoop_map {α β ι φ : Type} [Index ι φ] (calculate : β → Option φ) (id : β → ℕ) (f : α → β) (as : List α)
    (idx : ι) : pairLoop calculate id (as.map f) idx = pairLoop (calculate ∘ f) (id ∘ f) as idx := by
  induction as generalizing idx with
  | nil => rfl
  | cons a as ih =>
    rw [List.map_cons, pairLoop, pairLoop]
    simp only [ih]
    rfl

omit [LawfulBEq ρ] in
/-- **`palantir`**, on chunks, is the loop over their features. -/
theorem classify_palantir (order : IterOrder (ρ × ℕ)) (countOrder : IterOrder (ℕ × ℕ)) (cs : List Chunk) :
    FeatureType.palantir.classify order countOrder cs =
      palantirLoop order (cs.map fun c => (PalantirFeature.value c, c.id)) := by
  have hcalc : FeatureType.palantir.calculate (ρ := ρ) = fun c => some (PalantirFeature.call c) :=
    funext PalantirFeature.run_eq
  unfold palantirLoop valueLoop FeatureType.classify
  rw [pairLoop_map, hcalc]
  rfl

/-- **Two equal features are in one group** exactly when nothing that was added in between captures the
second; if the first matched by its ratio only, also provided that one ratio is near or that nothing was added in
between. -/
theorem equal_features_group (order : IterOrder (ρ × ℕ)) (vs : List (PalantirValue ρ × ℕ)) :
    ∃ os, palantirLoop order vs = some os ∧ os.length = vs.length ∧
      ∀ p q (x y : Classified ρ), p < q → (vs.zip os)[p]? = some x → (vs.zip os)[q]? = some y → x.1.1 = y.1.1 →
        ((vs.map Prod.snd).Nodup →
          (∃ z ∈ missed (((vs.zip os).take q).drop (p + 1)), Captures (missed ((vs.zip os).take p)) x.1.1 z.1) →
            y.group ≠ x.group) ∧
        ((∀ z ∈ missed (((vs.zip os).take q).drop (p + 1)), ¬Captures (missed ((vs.zip os).take p)) x.1.1 z.1) →
          (x.2 = none ∨ Shares (missed ((vs.zip os).take p)) x.1.1 ∨ OneNear (missed ((vs.zip os).take q)) x.1.1 ∨
            missed (((vs.zip os).take q).drop (p + 1)) = []) →
            y.group = x.group) := by
  obtain ⟨os, hos, hlen, hrun⟩ := valueLoop_ok vs (holds_new order)
  have hr : RunLaw (vs.zip os) := fun p x hx => by simpa using hrun p x hx
  refine ⟨os, hos, hlen, fun p q x y hpq hx hy hf => ⟨fun hids => ?_, fun hc hn => ?_⟩⟩
  · have hmap : ((vs.zip os).map fun x => x.1.2) = vs.map Prod.snd := by
      have hfst := congrArg (List.map Prod.snd) (List.map_fst_zip (by omega : vs.length ≤ os.length))
      rwa [List.map_map] at hfst
    exact hr.apart (by rwa [hmap]) hpq hx hy hf
  · rcases hn with hnone | hshares | hone | hnil
    · exact hr.together hpq hx hy hf hc (.inl hnone)
    · exact hr.together hpq hx hy hf hc (.inr (.inl hshares))
    · exact hr.together hpq hx hy hf hc (.inr (.inr hone))
    · rcases hxo : x.2 with _ | b
      · exact hr.together hpq hx hy hf hc (.inl hxo)
      · exact group_eq_of_unchanged (valueLoop_reads vs hos) hpq hx hy hf hxo hnil

/-- Two equal features in a row: two ratios are near theirs, and nothing is added in between. -/
theorem equal_features_group_near :
    let v (w : UInt64) (r : ℚ) : PalantirValue ℚ :=
      ⟨List.replicate 3 w, List.replicate 4 w, List.replicate 6 w, r, rfl, rfl, rfl⟩
    ∃ b, palantirLoop (.byInsertion _) [(v 1 0, 4), (v 2 (1 / 80), 5), (v 3 (1 / 200), 6), (v 3 (1 / 200), 7)] =
        some [none, none, some b, some b] := by
  intro v
  obtain ⟨os, hos, hlen, h⟩ := equal_features_group (.byInsertion _)
    [(v 1 0, 4), (v 2 (1 / 80), 5), (v 3 (1 / 200), 6), (v 3 (1 / 200), 7)]
  have hmiss : (palantirLoop (.byInsertion _) [(v 1 0, 4), (v 2 (1 / 80), 5), (v 3 (1 / 200), 6),
      (v 3 (1 / 200), 7)]).map (List.map Option.isNone) = some [true, true, false, false] := by decide +kernel
  rw [hos, Option.map_some, Option.some.injEq] at hmiss
  obtain ⟨o₀, o₁, o₂, o₃, rfl⟩ : ∃ o₀ o₁ o₂ o₃, os = [o₀, o₁, o₂, o₃] := by
    rcases os with _ | ⟨o₀, _ | ⟨o₁, _ | ⟨o₂, _ | ⟨o₃, _ | ⟨o₄, os⟩⟩⟩⟩⟩ <;> simp at hlen
    exact ⟨o₀, o₁, o₂, o₃, rfl⟩
  simp only [List.map_cons, List.map_nil, List.cons.injEq, Option.isNone_iff_eq_none, Option.isNone_eq_false_iff,
    Option.isSome_iff_exists, and_true] at hmiss
  obtain ⟨rfl, rfl, ⟨b, rfl⟩, ⟨b', rfl⟩⟩ := hmiss
  have hsame := (h 2 3 ((v 3 (1 / 200), 6), some b) ((v 3 (1 / 200), 7), some b') (by decide) rfl rfl rfl).2
    (by simp [missed]) (.inr (.inr (.inr rfl)))
  obtain rfl : b' = b := hsame
  exact ⟨b', hos⟩

/-- Two equal positions are in one group. -/
def EqualTogether (run : List (Classified ρ)) : Prop :=
  ∀ (p q : ℕ) (x y : Classified ρ), p < q → run[p]? = some x → run[q]? = some y → x.1.1 = y.1.1 → y.group = x.group

/-- The first matches 0 at a position of the second level, 2 is added with a super-feature of the first
level, the second matches that. Or: the first matches 0 by its ratio, 2 is added with a ratio that is near
too, and the loop over the ratios meets it first. -/
theorem equal_features_captured :
    let v (three four six : List UInt64) (r : ℚ) (h₃ : three.length = 3) (h₄ : four.length = 4)
      (h₆ : six.length = 6) : PalantirValue ℚ := ⟨three, four, six, r, h₃, h₄, h₆⟩
    let b := v [1, 1, 1] [1, 1, 1, 1] [1, 1, 1, 1, 1, 1] 0 rfl rfl rfl
    let x := v [5, 5, 5] [1, 5, 5, 5] [5, 5, 5, 5, 5, 5] (1 / 2) rfl rfl rfl
    let c := v [5, 6, 6] [6, 6, 6, 6] [6, 6, 6, 6, 6, 6] 1 rfl rfl rfl
    let x' := v [5, 5, 5] [5, 5, 5, 5] [5, 5, 5, 5, 5, 5] (1 / 200) rfl rfl rfl
    let c' := v [6, 6, 6] [6, 6, 6, 6] [6, 6, 6, 6, 6, 6] (1 / 80) rfl rfl rfl
    (∃ os, palantirLoop (.byInsertion _) [(b, 0), (x, 1), (c, 2), (x, 3)] = some os ∧
      ¬EqualTogether ([(b, 0), (x, 1), (c, 2), (x, 3)].zip os)) ∧
    (∃ os, palantirLoop ⟨List.reverse, List.reverse_perm⟩ [(b, 0), (x', 1), (c', 2), (x', 3)] = some os ∧
      ¬EqualTogether ([(b, 0), (x', 1), (c', 2), (x', 3)].zip os)) := by
  intro v b x c x' c'
  have hos : palantirLoop (.byInsertion _) [(b, 0), (x, 1), (c, 2), (x, 3)] =
      some [none, some 0, none, some 2] := by decide +kernel
  have hos' : palantirLoop ⟨List.reverse, List.reverse_perm⟩ [(b, 0), (x', 1), (c', 2), (x', 3)] =
      some [none, some 0, none, some 2] := by
    decide +kernel
  refine ⟨⟨_, hos, fun h => ?_⟩, ⟨_, hos', fun h => ?_⟩⟩
  · exact absurd (h 1 3 ((x, 1), some 0) ((x, 3), some 2) (by decide) rfl rfl rfl) (by decide)
  · exact absurd (h 1 3 ((x', 1), some 0) ((x', 3), some 2) (by decide) rfl rfl rfl) (by decide)

end ChunkGrouping
