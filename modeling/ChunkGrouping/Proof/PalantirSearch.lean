import ChunkGrouping.Lib.FirstFit
import ChunkGrouping.Proof.PalantirIndex

/-!
# `PalantirIndex` against a search of its history

The three levels are one row of 13 maps, level by level, and a lookup of super-features is
the first fit in that row. The ratios are in a map of their own, in the third level.

* `PalantirValue`: a feature as `PalantirFeature` makes it.
* `IsAnswer`: what a search of all features added so far answers; the choice among several
  ratios near the query is open.
* `Holds`: the index has the history; `Holds.add`, `Holds.lookup` for the two calls.
* `palantir_lookup_search`: any lookup after any sequence of `AddFeature` calls.
-/

namespace ChunkGrouping

open InsertMap FirstFit SuperFeatureIndex PalantirIndex

variable {ρ : Type}

/-- Three vectors of super-features and a ratio. -/
structure PalantirValue (ρ : Type) where
  three : List UInt64
  four : List UInt64
  six : List UInt64
  ratio : ρ
  length_three : three.length = 3
  length_four : four.length = 4
  length_six : six.length = 6

namespace PalantirValue

/-- The `Feature`. -/
def toFeature (f : PalantirValue ρ) : Feature ρ :=
  .levels [.words f.three, .words f.four, .words f.six, .floats [f.ratio]]

/-- The super-features, level by level: the pairs of a level and a position in it, in
lexicographic order. -/
def keys (f : PalantirValue ρ) : List UInt64 := f.three ++ f.four ++ f.six

theorem length_keys (f : PalantirValue ρ) : f.keys.length = 13 := by
  simp [keys, f.length_three, f.length_four, f.length_six]

end PalantirValue

/-- The super-features added. -/
def wordHistory (h : List (PalantirValue ρ × ℕ)) : List (List UInt64 × ℕ) := h.map fun e => (e.1.keys, e.2)

/-- The ratios added. -/
def ratioHistory (h : List (PalantirValue ρ × ℕ)) : List (List ρ × ℕ) := h.map fun e => ([e.1.ratio], e.2)

/-- **What the search answers** for `q`: the latest feature that has a super-feature of `q`, at the first
position at which one has; else the latest one with a ratio near that of `q`, for any such ratio. -/
def IsAnswer [Ratio ρ] [BEq ρ] (h : List (PalantirValue ρ × ℕ)) (q : PalantirValue ρ) (o : Option ℕ) : Prop :=
  match search (wordHistory h) q.keys with
  | some id => o = some id
  | none =>
    (∃ e ∈ h, Ratio.near e.1.ratio q.ratio = true ∧ o = latest 0 [e.1.ratio] (ratioHistory h)) ∨
      ((∀ e ∈ h, Ratio.near e.1.ratio q.ratio = false) ∧ o = none)

/-- A sequence of `AddFeature` calls. -/
def PalantirIndex.addAll [BEq ρ] (adds : List (PalantirValue ρ × ℕ)) (idx : PalantirIndex ρ) :
    Option (PalantirIndex ρ) := adds.foldlM (fun idx a => addFeature a.1.toFeature a.2 idx) idx

/-! ## The levels as one row -/

theorem length_wordHistory {h : List (PalantirValue ρ × ℕ)} : ∀ e ∈ wordHistory h, e.1.length = 13 := by
  intro e he
  obtain ⟨x, -, rfl⟩ := List.mem_map.1 he
  exact x.1.length_keys

theorem length_ratioHistory {h : List (PalantirValue ρ × ℕ)} : ∀ e ∈ ratioHistory h, e.1.length = 1 := by
  intro e he
  obtain ⟨x, -, rfl⟩ := List.mem_map.1 he
  rfl

theorem superLoop_eq {index : List (Entries UInt64 ℕ)} {ws : List UInt64} (hl : index.length = ws.length) :
    superLoop index ws = some (firstFit index ws) := by
  induction index generalizing ws with
  | nil =>
    obtain rfl := List.length_eq_zero_iff.1 hl.symm
    rfl
  | cons m index ih =>
    obtain ⟨w, ws, rfl⟩ := List.exists_cons_of_length_eq_add_one hl.symm
    rw [superLoop, firstFit]
    cases get? w m with
    | some id => rfl
    | none => exact ih (by simpa using hl)

/-- **The index has the history.** -/
structure Holds [BEq ρ] (h : List (PalantirValue ρ × ℕ)) (idx : PalantirIndex ρ) : Prop where
  levels : ∃ l₁ l₂ l₃ m₁ m₂ m₃, idx.levels = [l₁, l₂, l₃] ∧ IsLevel 3 l₁ m₁ ∧ IsLevel 4 l₂ m₂ ∧ IsLevel 6 l₃ m₃ ∧
    l₁.index ++ l₂.index ++ l₃.index = build 13 (wordHistory h) ∧ [m₃] = build 1 (ratioHistory h)

theorem holds_new [BEq ρ] (order : IterOrder (ρ × ℕ)) : Holds [] (new order) :=
  ⟨_, _, _, [], [], [], rfl, ⟨rfl, rfl⟩, ⟨rfl, rfl⟩, ⟨rfl, rfl⟩, rfl, rfl⟩

variable {h : List (PalantirValue ρ × ℕ)} {idx : PalantirIndex ρ}

/-- **`AddFeature`.** -/
theorem Holds.add [BEq ρ] (hh : Holds h idx) (f : PalantirValue ρ) (id : ℕ) :
    ∃ idx', addFeature f.toFeature id idx = some idx' ∧ Holds (h ++ [(f, id)]) idx' := by
  obtain ⟨l₁, l₂, l₃, m₁, m₂, m₃, hl, h₁, h₂, h₃, hwords, hratio⟩ := hh.levels
  obtain ⟨levels⟩ := idx
  obtain rfl : levels = [l₁, l₂, l₃] := hl
  refine ⟨_, addFeature_ok id h₁ h₂ h₃ f.length_three f.length_four f.length_six, _, _, _, m₁, m₂, _, rfl,
    isLevel_withWords id h₁ f.length_three, isLevel_withWords id h₂ f.length_four,
    ⟨(isLevel_withWords id h₃ f.length_six).index, rfl⟩, ?_, ?_⟩
  · rw [wordHistory, List.map_append, List.map_singleton, build_concat, ← wordHistory, ← hwords]
    simp only [PalantirValue.keys]
    rw [add_append (by simp [h₁.index, h₂.index, f.length_three, f.length_four]),
      add_append (h₁.index.trans f.length_three.symm)]
    rfl
  · rw [ratioHistory, List.map_append, List.map_singleton, build_concat, ← ratioHistory, ← hratio]
    rfl

/-- An entry of the ratio map is the latest with its ratio. -/
theorem latest_of_mem [BEq ρ] [LawfulBEq ρ] {m : Entries ρ ℕ} (hm : [m] = build 1 (ratioHistory h)) {e : ρ × ℕ}
    (he : e ∈ m) : latest 0 [e.1] (ratioHistory h) = some e.2 := by
  obtain ⟨m', hm', hget⟩ := get?_build Nat.zero_lt_one (length_ratioHistory (h := h)) e.1
  rw [← hm] at hm'
  obtain rfl : m = m' := Option.some.inj hm'
  have hnd := nodup_build 1 (ratioHistory h) m (by rw [← hm]; exact List.mem_singleton_self m)
  exact hget.symm.trans ((get?_eq_some_iff hnd).2 he)

/-- The ratios of the map are those added. -/
theorem mem_ratios_iff [BEq ρ] [LawfulBEq ρ] {m : Entries ρ ℕ} (hm : [m] = build 1 (ratioHistory h)) (x : ρ) :
    x ∈ m.map Prod.fst ↔ ∃ e ∈ h, e.1.ratio = x := by
  obtain ⟨m', hm', hget⟩ := get?_build Nat.zero_lt_one (length_ratioHistory (h := h)) x
  rw [← hm] at hm'
  obtain rfl : m = m' := Option.some.inj hm'
  have hlatest : (get? x m).isSome ↔ ∃ e ∈ ratioHistory h, e.1[0]? = some x := by
    rw [hget]
    exact latest_isSome_iff (q := [x])
  have hkeys : x ∈ m.map Prod.fst ↔ (get? x m).isSome := by
    rw [isSome_get?_iff, List.mem_map]
    simp
  rw [hkeys, hlatest]
  constructor
  · rintro ⟨e, he, hx⟩
    obtain ⟨y, hy, rfl⟩ := List.mem_map.1 he
    exact ⟨y, hy, Option.some.inj hx⟩
  · rintro ⟨y, hy, rfl⟩
    exact ⟨_, List.mem_map_of_mem hy, rfl⟩

/-- **`GetBaseChunkID`.** -/
theorem Holds.lookup [Ratio ρ] [BEq ρ] [LawfulBEq ρ] (hh : Holds h idx) (q : PalantirValue ρ) :
    ∃ o, getBaseChunkID q.toFeature idx = some o ∧ IsAnswer h q o := by
  obtain ⟨l₁, l₂, l₃, m₁, m₂, m₃, hl, h₁, h₂, h₃, hwords, hratio⟩ := hh.levels
  obtain ⟨levels⟩ := idx
  obtain rfl : levels = [l₁, l₂, l₃] := hl
  obtain ⟨o, ho, hsome, hnear⟩ := floatLoop_ok l₃.order m₃ q.ratio
  have hget := getBaseChunkID_levels h₃ (superLoop_eq (h₁.index.trans q.length_three.symm))
    (superLoop_eq (h₂.index.trans q.length_four.symm)) (superLoop_eq (h₃.index.trans q.length_six.symm)) ho
  -- the three levels are one row
  have hrow : (firstFit l₁.index q.three).or ((firstFit l₂.index q.four).or ((firstFit l₃.index q.six).or o)) =
      (search (wordHistory h) q.keys).or o := by
    rw [← firstFit_build length_wordHistory q.length_keys, ← hwords, PalantirValue.keys,
      firstFit_append (by simp [h₁.index, h₂.index, q.length_three, q.length_four]),
      firstFit_append (h₁.index.trans q.length_three.symm), Option.or_assoc, Option.or_assoc]
  rw [hrow] at hget
  refine ⟨_, hget, ?_⟩
  unfold IsAnswer
  cases search (wordHistory h) q.keys with
  | some id => rfl
  | none =>
    simp only [Option.none_or]
    cases o with
    | some id =>
      obtain ⟨e, he, hn, rfl⟩ := hnear id rfl
      obtain ⟨x, hx, hxe⟩ := (mem_ratios_iff hratio e.1).1 (List.mem_map_of_mem he)
      exact .inl ⟨x, hx, by rw [hxe]; exact hn, by rw [hxe, latest_of_mem hratio he]⟩
    | none =>
      refine .inr ⟨fun e he => Bool.eq_false_iff.2 fun hn => ?_, rfl⟩
      exact absurd (hsome.2 ⟨e.1.ratio, (mem_ratios_iff hratio _).2 ⟨e, he, rfl⟩, hn⟩) (by simp)

/-! ## Any history -/

variable [Ratio ρ] [BEq ρ] [LawfulBEq ρ]

omit [Ratio ρ] [LawfulBEq ρ] in
/-- **A run of `AddFeature` calls.** -/
theorem Holds.addAll (adds : List (PalantirValue ρ × ℕ)) : ∀ {h : List (PalantirValue ρ × ℕ)} {idx : PalantirIndex ρ},
    Holds h idx → ∃ idx', addAll adds idx = some idx' ∧ Holds (h ++ adds) idx' := by
  induction adds with
  | nil =>
    intro h idx hh
    exact ⟨idx, rfl, by rwa [List.append_nil]⟩
  | cons a adds ih =>
    intro h idx hh
    obtain ⟨idx₁, h₁, hh₁⟩ := hh.add a.1 a.2
    obtain ⟨idx', h', hh'⟩ := ih hh₁
    refine ⟨idx', ?_, by rwa [List.append_assoc] at hh'⟩
    unfold PalantirIndex.addAll at h' ⊢
    rw [List.foldlM_cons, h₁]
    exact h'

/-- An answer was added. -/
theorem IsAnswer.mem {q : PalantirValue ρ} {o : Option ℕ} (ha : IsAnswer h q o) {id : ℕ} (ho : o = some id) :
    id ∈ h.map Prod.snd := by
  unfold IsAnswer at ha
  split at ha
  · rename_i id' hs
    obtain rfl := Option.some.inj (ho.symm.trans ha)
    obtain ⟨k, -, hk, -⟩ := search_eq_some_iff.1 hs
    obtain ⟨e, he, -, rfl⟩ := mem_of_latest hk
    obtain ⟨x, hx, rfl⟩ := List.mem_map.1 he
    exact List.mem_map_of_mem hx
  · rcases ha with ⟨e, -, -, hl⟩ | ⟨-, hnone⟩
    · obtain ⟨y, hy, -, rfl⟩ := mem_of_latest (hl.symm.trans ho)
      obtain ⟨x, hx, rfl⟩ := List.mem_map.1 hy
      exact List.mem_map_of_mem hx
    · cases ho.symm.trans hnone

/-- No answer: nothing that was added shares a super-feature or a ratio with the query. -/
theorem IsAnswer.not_shared {q : PalantirValue ρ} (ha : IsAnswer h q none) :
    ∀ e ∈ h, (∀ k < 13, e.1.keys[k]? ≠ q.keys[k]?) ∧ Ratio.near e.1.ratio q.ratio = false := by
  unfold IsAnswer at ha
  split at ha
  · cases ha
  · rename_i hs
    rcases ha with ⟨e, he, -, hl⟩ | ⟨hfar, -⟩
    · have hsome : (latest 0 [e.1.ratio] (ratioHistory h)).isSome :=
        latest_isSome_iff.2 ⟨_, List.mem_map_of_mem he, rfl⟩
      rw [← hl] at hsome
      cases hsome
    · intro e he
      refine ⟨fun k hk => ?_, hfar e he⟩
      exact search_eq_none_iff.1 hs k (by rw [q.length_keys]; exact hk) (e.1.keys, e.2) (List.mem_map_of_mem he)

/-- **`PalantirIndex` answers as the search of its history.** What it answers was added; no answer means
that nothing added has a super-feature or a ratio in common with the query. -/
theorem palantir_lookup_search (order : IterOrder (ρ × ℕ)) (adds : List (PalantirValue ρ × ℕ)) (q : PalantirValue ρ) :
    ∃ idx o, addAll adds (new order) = some idx ∧ getBaseChunkID q.toFeature idx = some o ∧ IsAnswer adds q o ∧
      (∀ id, o = some id → id ∈ adds.map Prod.snd) ∧
      (o = none → ∀ e ∈ adds, (∀ k < 13, e.1.keys[k]? ≠ q.keys[k]?) ∧ Ratio.near e.1.ratio q.ratio = false) := by
  obtain ⟨idx, hidx, hh⟩ := (holds_new order).addAll adds
  obtain ⟨o, ho, ha⟩ := hh.lookup q
  rw [List.nil_append] at ha
  exact ⟨idx, o, hidx, ho, ha, fun id => ha.mem, fun hnone => (hnone ▸ ha).not_shared⟩

/-- Two features with a first super-feature in common: the latest answers. -/
theorem palantir_lookup_search_two :
    ∃ idx, addAll [(⟨[1, 2, 3], [4, 5, 6, 7], [8, 9, 10, 11, 12, 13], (1 / 2 : ℚ), rfl, rfl, rfl⟩, 0),
        (⟨[1, 0, 0], [0, 0, 0, 0], [0, 0, 0, 0, 0, 0], 1, rfl, rfl, rfl⟩, 1)] (new (.byInsertion _)) = some idx ∧
      getBaseChunkID (.levels [.words [1, 2, 3], .words [4, 5, 6, 7], .words [8, 9, 10, 11, 12, 13],
        .floats [1 / 2]]) idx = some (some 1) := by
  obtain ⟨idx, o, hidx, ho, ha, -⟩ := palantir_lookup_search (ρ := ℚ) (.byInsertion _)
    [(⟨[1, 2, 3], [4, 5, 6, 7], [8, 9, 10, 11, 12, 13], 1 / 2, rfl, rfl, rfl⟩, 0),
      (⟨[1, 0, 0], [0, 0, 0, 0], [0, 0, 0, 0, 0, 0], 1, rfl, rfl, rfl⟩, 1)]
    ⟨[1, 2, 3], [4, 5, 6, 7], [8, 9, 10, 11, 12, 13], 1 / 2, rfl, rfl, rfl⟩
  obtain rfl : o = some 1 := ha
  exact ⟨idx, hidx, ho⟩

end ChunkGrouping
