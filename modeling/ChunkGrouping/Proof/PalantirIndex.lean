import ChunkGrouping.Proof.IndexLaws

/-!
# `PalantirIndex` is lawful

Whatever the order in which a loop meets the entries of a map.

* `superLoop_ok`, `floatLoop_ok`: the lookups of one level.
* `PalantirIndex.getBaseChunkID_ok`, `PalantirIndex.addFeature_ok`: the three levels.
-/

namespace ChunkGrouping

open InsertMap

/-! ## One level of super-features -/

namespace SuperFeatureIndex

section Words

variable {index : List (Entries UInt64 ℕ)} {ws : List UInt64}

/-- Some super-feature is in its map. -/
def WordFound : List (Entries UInt64 ℕ) → List UInt64 → Prop
  | m :: index, w :: ws => (get? w m).isSome ∨ WordFound index ws
  | _, _ => False

/-- The ids in the maps. -/
def IdIn {K : Type} (index : List (Entries K ℕ)) (id : ℕ) : Prop := ∃ m ∈ index, ∃ e ∈ m, e.2 = id

theorem superLoop_ok (h : index.length = ws.length) :
    ∃ o, superLoop index ws = some o ∧ (o.isSome ↔ WordFound index ws) ∧
      ∀ id, o = some id → IdIn index id := by
  induction index generalizing ws with
  | nil => exact ⟨none, rfl, by simp [WordFound], by simp⟩
  | cons m index ih =>
    obtain ⟨w, ws, rfl⟩ := List.exists_cons_of_length_eq_add_one h.symm
    cases hm : get? w m with
    | some id =>
      refine ⟨some id, by simp [superLoop, hm], by simp [WordFound, hm], fun id' he => ?_⟩
      obtain rfl := Option.some.inj he
      exact ⟨m, List.mem_cons_self, mem_of_get? hm⟩
    | none =>
      obtain ⟨o, ho, hf, hid⟩ := ih (by simpa using h : index.length = ws.length)
      refine ⟨o, by simp [superLoop, hm, ho], by simp [WordFound, hm, hf], fun id he => ?_⟩
      obtain ⟨m', hm', he'⟩ := hid id he
      exact ⟨m', List.mem_cons_of_mem _ hm', he'⟩

end Words

/-- Setting a key in each map. -/
theorem setLoop_ok {K : Type} [BEq K] (id : ℕ) {index : List (Entries K ℕ)} {ks : List K}
    (h : index.length = ks.length) :
    ∃ index', setLoop id index ks = some index' ∧ index' = List.zipWith (fun k m => set k id m) ks index := by
  induction index generalizing ks with
  | nil => exact ⟨[], rfl, by simp⟩
  | cons m index ih =>
    obtain ⟨k, ks, rfl⟩ := List.exists_cons_of_length_eq_add_one h.symm
    obtain ⟨index', hs, rfl⟩ := ih (by simpa using h : index.length = ks.length)
    exact ⟨_, by simp [setLoop, hs], rfl⟩

theorem idIn_set {K : Type} [BEq K] {id x : ℕ} {index : List (Entries K ℕ)} {ks : List K}
    (h : IdIn (List.zipWith (fun k m => set k id m) ks index) x) : IdIn index x ∨ x = id := by
  induction index generalizing ks with
  | nil => simp [IdIn] at h
  | cons m index ih =>
    cases ks with
    | nil => simp [IdIn] at h
    | cons k ks =>
      obtain ⟨m', hm', e, he, rfl⟩ := h
      rw [List.zipWith_cons_cons] at hm'
      rcases List.mem_cons.1 hm' with rfl | hm'
      · rcases snd_of_mem_set he with ⟨e', he', hx⟩ | hx
        · exact .inl ⟨m, List.mem_cons_self, e', he', hx⟩
        · exact .inr hx
      · rcases ih ⟨m', hm', e, he, rfl⟩ with ⟨m₁, hm₁, hx⟩ | hx
        · exact .inl ⟨m₁, List.mem_cons_of_mem _ hm₁, hx⟩
        · exact .inr hx

/-- What was found is found after more was set. -/
theorem WordFound.set {index : List (Entries UInt64 ℕ)} {ws vs : List UInt64} (id : ℕ)
    (hl : index.length = vs.length) (h : WordFound index ws) :
    WordFound (List.zipWith (fun k m => InsertMap.set k id m) vs index) ws := by
  induction index generalizing ws vs with
  | nil => cases ws <;> exact h.elim
  | cons m index ih =>
    obtain ⟨v, vs, rfl⟩ := List.exists_cons_of_length_eq_add_one hl.symm
    cases ws with
    | nil => exact h.elim
    | cons w ws =>
      rw [List.zipWith_cons_cons]
      rcases h with h | h
      · exact .inl (isSome_get?_alter _ _ _ h)
      · exact .inr (ih (by simpa using hl) h)

/-- What was set is found. -/
theorem wordFound_set_self {index : List (Entries UInt64 ℕ)} {ws : List UInt64} (id : ℕ)
    (hl : index.length = ws.length) (hpos : 0 < ws.length) :
    WordFound (List.zipWith (fun k m => InsertMap.set k id m) ws index) ws := by
  obtain ⟨w, ws, rfl⟩ := List.exists_cons_of_length_pos hpos
  obtain ⟨m, index, rfl⟩ := List.exists_cons_of_length_eq_add_one hl
  exact .inl (isSome_get?_alter_self _ _ _ _)

section Floats

variable {ρ : Type} [Ratio ρ]

/-- **The lookup of a ratio**: an entry that is near it, if there is one. -/
theorem floatLoop_ok (order : IterOrder (ρ × ℕ)) (m : Entries ρ ℕ) (x : ρ) :
    ∃ o, floatLoop order [m] [x] none = some o ∧
      (o.isSome ↔ ∃ k ∈ m.map Prod.fst, Ratio.near k x) ∧
      ∀ id, o = some id → ∃ e ∈ m, Ratio.near e.1 x = true ∧ e.2 = id := by
  cases m with
  | nil => exact ⟨none, rfl, by simp, by simp⟩
  | cons e m =>
    cases hf : (order.iter (e :: m)).find? fun e => Ratio.near e.1 x with
    | none =>
      refine ⟨none, by simp [floatLoop, hf], ?_, by simp⟩
      rw [List.find?_eq_none] at hf
      simp only [Option.isSome_none, Bool.false_eq_true, List.mem_map, false_iff]
      rintro ⟨k, ⟨e', he', rfl⟩, hn⟩
      exact hf e' ((order.perm _).mem_iff.2 he') hn
    | some e' =>
      have hmem : e' ∈ e :: m := (order.perm _).mem_iff.1 (List.mem_of_find?_eq_some hf)
      refine ⟨some e'.2, by simp [floatLoop, hf], ?_, fun id he => ?_⟩
      · simp only [Option.isSome_some, true_iff]
        have hnear := List.find?_some hf
        exact ⟨e'.1, List.mem_map_of_mem hmem, hnear⟩
      · have hnear := List.find?_some hf
        exact ⟨e', hmem, hnear, Option.some.inj he⟩

end Floats

/-- A level of `PalantirIndex`: `n` maps of super-features and one of ratios. -/
structure IsLevel {ρ : Type} (n : ℕ) (l : SuperFeatureIndex ρ) (m : Entries ρ ℕ) : Prop where
  index : l.index.length = n
  float : l.indexFloat = [m]

end SuperFeatureIndex

/-! ## `PalantirIndex` -/

namespace PalantirIndex

open SuperFeatureIndex

variable {ρ : Type}

/-- The three levels are there. -/
def Ready (idx : PalantirIndex ρ) : Prop :=
  ∃ l₁ l₂ l₃ m₁ m₂ m₃, idx.levels = [l₁, l₂, l₃] ∧ IsLevel 3 l₁ m₁ ∧ IsLevel 4 l₂ m₂ ∧ IsLevel 6 l₃ m₃

/-- A feature as `PalantirFeature` makes it. -/
def Fits (f : Feature ρ) : Prop :=
  ∃ a b c x, f = .levels [.words a, .words b, .words c, .floats [x]] ∧ a.length = 3 ∧ b.length = 4 ∧
    c.length = 6

/-- The ids in the index. -/
def known (idx : PalantirIndex ρ) (id : ℕ) : Prop :=
  ∃ l ∈ idx.levels, IdIn l.index id ∨ IdIn l.indexFloat id

theorem ready_new (order : IterOrder (ρ × ℕ)) : Ready (new order) :=
  ⟨_, _, _, [], [], [], rfl, ⟨rfl, rfl⟩, ⟨rfl, rfl⟩, ⟨rfl, rfl⟩⟩

theorem not_known_new (order : IterOrder (ρ × ℕ)) (id : ℕ) : ¬ known (new order) id := by
  simp [known, new, SuperFeatureIndex.new, IdIn]

/-- A level with the super-features `ws` set to `id`. -/
def withWords (id : ℕ) (ws : List UInt64) (l : SuperFeatureIndex ρ) : SuperFeatureIndex ρ :=
  { l with index := List.zipWith (fun k m => InsertMap.set k id m) ws l.index }

theorem isLevel_withWords {n : ℕ} {l : SuperFeatureIndex ρ} {m : Entries ρ ℕ} {ws : List UInt64} (id : ℕ)
    (h : IsLevel n l m) (hw : ws.length = n) : IsLevel n (withWords id ws l) m :=
  ⟨by simp [withWords, h.index, hw], h.float⟩

variable [Ratio ρ] {l₁ l₂ l₃ : SuperFeatureIndex ρ} {m₁ m₂ m₃ : Entries ρ ℕ} {a b c : List UInt64} {x : ρ}

theorem fits_call (chunk : Chunk) : Fits (PalantirFeature.call chunk : Feature ρ) :=
  ⟨_, _, _, _, rfl, by simp [PalantirFeature.group], by simp [PalantirFeature.group],
    by simp [PalantirFeature.group]⟩

/-- The feature is found at some level. -/
def Found (l₁ l₂ l₃ : SuperFeatureIndex ρ) (m₃ : Entries ρ ℕ) (a b c : List UInt64) (x : ρ) : Prop :=
  WordFound l₁.index a ∨ WordFound l₂.index b ∨ WordFound l₃.index c ∨ ∃ k ∈ m₃.map Prod.fst, Ratio.near k x

/-- The lookup is the first of the four that finds something. -/
theorem getBaseChunkID_levels (h₃ : IsLevel 6 l₃ m₃) {o₁ o₂ o₃ o₄ : Option ℕ} (e₁ : superLoop l₁.index a = some o₁)
    (e₂ : superLoop l₂.index b = some o₂) (e₃ : superLoop l₃.index c = some o₃)
    (e₄ : floatLoop l₃.order [m₃] [x] none = some o₄) :
    getBaseChunkID (.levels [.words a, .words b, .words c, .floats [x]]) ⟨[l₁, l₂, l₃]⟩ =
      some (o₁.or (o₂.or (o₃.or o₄))) := by
  simp only [getBaseChunkID, List.length_cons, List.length_nil, List.dropLast_cons_cons,
    List.dropLast_singleton, lookupLoop, SuperFeatureIndex.getBaseChunkID, e₁, e₂, e₃,
    List.getLast?_cons_cons, List.getLast?_singleton]
  cases o₁ <;> cases o₂ <;> cases o₃ <;> simp [h₃.float, e₄]

/-- **The lookup**, level by level. -/
theorem getBaseChunkID_ok (h₁ : IsLevel 3 l₁ m₁) (h₂ : IsLevel 4 l₂ m₂) (h₃ : IsLevel 6 l₃ m₃)
    (ha : a.length = 3) (hb : b.length = 4) (hc : c.length = 6) :
    ∃ o, getBaseChunkID (.levels [.words a, .words b, .words c, .floats [x]]) ⟨[l₁, l₂, l₃]⟩ = some o ∧
      (o.isSome ↔ Found l₁ l₂ l₃ m₃ a b c x) ∧ ∀ id, o = some id → known ⟨[l₁, l₂, l₃]⟩ id := by
  obtain ⟨o₁, e₁, f₁, k₁⟩ := superLoop_ok (h₁.index.trans ha.symm)
  obtain ⟨o₂, e₂, f₂, k₂⟩ := superLoop_ok (h₂.index.trans hb.symm)
  obtain ⟨o₃, e₃, f₃, k₃⟩ := superLoop_ok (h₃.index.trans hc.symm)
  obtain ⟨o₄, e₄, f₄, k₄⟩ := floatLoop_ok l₃.order m₃ x
  refine ⟨o₁.or (o₂.or (o₃.or o₄)), getBaseChunkID_levels h₃ e₁ e₂ e₃ e₄, ?_, ?_⟩
  · unfold Found
    rw [← f₁, ← f₂, ← f₃, ← f₄]
    cases o₁ <;> cases o₂ <;> cases o₃ <;> simp
  · intro id hid
    rcases Option.or_eq_some_iff.1 hid with h | ⟨-, h⟩
    · exact ⟨l₁, by simp, .inl (k₁ id h)⟩
    rcases Option.or_eq_some_iff.1 h with h | ⟨-, h⟩
    · exact ⟨l₂, by simp, .inl (k₂ id h)⟩
    rcases Option.or_eq_some_iff.1 h with h | ⟨-, h⟩
    · exact ⟨l₃, by simp, .inl (k₃ id h)⟩
    · obtain ⟨e, he, -, hid⟩ := k₄ id h
      exact ⟨l₃, by simp, .inr ⟨m₃, by rw [h₃.float]; exact List.mem_singleton_self _, e, he, hid⟩⟩

variable [BEq ρ]

omit [Ratio ρ] in
/-- **`AddFeature`** sets every super-feature and the ratio. -/
theorem addFeature_ok (id : ℕ) (h₁ : IsLevel 3 l₁ m₁) (h₂ : IsLevel 4 l₂ m₂) (h₃ : IsLevel 6 l₃ m₃)
    (ha : a.length = 3) (hb : b.length = 4) (hc : c.length = 6) :
    addFeature (.levels [.words a, .words b, .words c, .floats [x]]) id ⟨[l₁, l₂, l₃]⟩ =
      some ⟨[withWords id a l₁, withWords id b l₂,
        { withWords id c l₃ with indexFloat := [InsertMap.set x id m₃] }]⟩ := by
  obtain ⟨_, e₁, rfl⟩ := setLoop_ok id (h₁.index.trans ha.symm)
  obtain ⟨_, e₂, rfl⟩ := setLoop_ok id (h₂.index.trans hb.symm)
  obtain ⟨_, e₃, rfl⟩ := setLoop_ok id (h₃.index.trans hc.symm)
  have e₄ : setLoop id [m₃] [x] = some [InsertMap.set x id m₃] := rfl
  simp [addFeature, addLoop, SuperFeatureIndex.addFeature, e₁, e₂, e₃, h₃.float, e₄, withWords]

/-- Growing keeps what is found. -/
theorem Found.add {a' b' c' : List UInt64} (x' : ρ) (id : ℕ) (h₁ : IsLevel 3 l₁ m₁)
    (h₂ : IsLevel 4 l₂ m₂) (h₃ : IsLevel 6 l₃ m₃) (ha : a'.length = 3) (hb : b'.length = 4)
    (hc : c'.length = 6) (h : Found l₁ l₂ l₃ m₃ a b c x) :
    Found (withWords id a' l₁) (withWords id b' l₂)
      { withWords id c' l₃ with indexFloat := [InsertMap.set x' id m₃] } (InsertMap.set x' id m₃) a b c x := by
  rcases h with h | h | h | ⟨k, hk, hn⟩
  · exact .inl (h.set id (h₁.index.trans ha.symm))
  · exact .inr (.inl (h.set id (h₂.index.trans hb.symm)))
  · exact .inr (.inr (.inl (h.set id (h₃.index.trans hc.symm))))
  · exact .inr (.inr (.inr ⟨k, mem_keys_alter _ _ _ hk, hn⟩))

instance : LawfulIndex (PalantirIndex ρ) (Feature ρ) where
  Ready := Ready
  Fits := Fits
  known := known
  get_ok := by
    rintro ⟨levels⟩ f ⟨l₁, l₂, l₃, m₁, m₂, m₃, rfl, h₁, h₂, h₃⟩ ⟨a, b, c, x, rfl, ha, hb, hc⟩
    obtain ⟨o, ho, -, hk⟩ := getBaseChunkID_ok (x := x) h₁ h₂ h₃ ha hb hc
    exact ⟨o, ho, hk⟩
  add_ok := by
    rintro ⟨levels⟩ f id ⟨l₁, l₂, l₃, m₁, m₂, m₃, rfl, h₁, h₂, h₃⟩ ⟨a, b, c, x, rfl, ha, hb, hc⟩
    have h₁' := isLevel_withWords id h₁ ha
    have h₂' := isLevel_withWords id h₂ hb
    have h₃' : IsLevel 6 { withWords id c l₃ with indexFloat := [InsertMap.set x id m₃] }
        (InsertMap.set x id m₃) := ⟨(isLevel_withWords id h₃ hc).index, rfl⟩
    refine ⟨_, addFeature_ok id h₁ h₂ h₃ ha hb hc, ⟨_, _, _, _, _, _, rfl, h₁', h₂', h₃'⟩, ?_, ?_, ?_⟩
    · rintro y ⟨l, hl, hy⟩
      simp only [List.mem_cons, List.not_mem_nil, or_false] at hl
      rcases hl with rfl | rfl | rfl <;> rcases hy with hy | hy
      · exact (idIn_set hy).imp_left fun h => ⟨l₁, by simp, .inl h⟩
      · exact .inl ⟨l₁, by simp, .inr hy⟩
      · exact (idIn_set hy).imp_left fun h => ⟨l₂, by simp, .inl h⟩
      · exact .inl ⟨l₂, by simp, .inr hy⟩
      · exact (idIn_set hy).imp_left fun h => ⟨l₃, by simp, .inl h⟩
      · have hy' : IdIn (List.zipWith (fun k m => InsertMap.set k id m) [x] [m₃]) y := hy
        exact (idIn_set hy').imp_left fun h => ⟨l₃, by simp, .inr (by rw [h₃.float]; exact h)⟩
    · obtain ⟨o, ho, hf, -⟩ := getBaseChunkID_ok (x := x) h₁' h₂' h₃' ha hb hc
      have hfound : WordFound (withWords id a l₁).index a :=
        wordFound_set_self id (h₁.index.trans ha.symm) (by omega)
      obtain ⟨b', hb'⟩ := Option.isSome_iff_exists.1 (hf.2 (.inl hfound))
      exact ⟨b', by rw [← hb']; exact ho⟩
    · rintro g b₀ ⟨a', b', c', x', rfl, ha', hb', hc'⟩ hg
      obtain ⟨o, ho, hf, -⟩ := getBaseChunkID_ok (x := x') h₁ h₂ h₃ ha' hb' hc'
      obtain rfl : o = some b₀ := Option.some.inj (ho.symm.trans hg)
      obtain ⟨o', ho', hf', -⟩ := getBaseChunkID_ok (x := x') h₁' h₂' h₃' ha' hb' hc'
      have hfound := (hf.1 rfl).add x id h₁ h₂ h₃ ha hb hc
      obtain ⟨b₁, hb₁⟩ := Option.isSome_iff_exists.1 (hf'.2 hfound)
      exact ⟨b₁, by rw [← hb₁]; exact ho'⟩

end PalantirIndex

/-- `palantir`: `PalantirFeature` and `PalantirIndex`. -/
def FeatureIndex.palantir {ρ : Type} [Ratio ρ] [BEq ρ] (order : IterOrder (ρ × ℕ)) :
    FeatureIndex (PalantirIndex ρ) (Feature ρ) where
  feature := PalantirFeature.call
  index := .new order
  fits := PalantirIndex.fits_call
  ready := PalantirIndex.ready_new order
  empty := PalantirIndex.not_known_new order
  content c c' h := by simp only [PalantirFeature.call, OdessSubfeatures.subFeatures, h]

end ChunkGrouping
