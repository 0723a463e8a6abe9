import ChunkGrouping.Model.IndexFile
import ChunkGrouping.Proof.PalantirIndex

/-!
# Dump and recover of a `SuperFeatureIndex`

The file holds the maps of super-features only. They are read back when their sizes
fit an `int`; the ratios are lost.

* `recoverLoop_ok`: the maps that are read back; `recoverLoop_size`: no map that is
  read back has `2^31` entries.
* `exists_missed`: a query that shows a difference in size.
* `recover_dump_iff`: when the recovered index answers as the dumped one.
-/

namespace ChunkGrouping

open InsertMap LittleEndian

namespace SuperFeatureIndex

variable {ρ : Type}

/-! ## The file -/

theorem readLE_toLE {w n : ℕ} (hn : n < 256 ^ w) (rest : List UInt8) :
    readLE w (toLE w n ++ rest) = (n, rest) := by
  unfold readLE
  rw [List.take_left' (length_toLE w n), List.drop_left' (length_toLE w n), ofLE_toLE_of_lt hn]

/-- The entries are read and inserted, if their number fits an `int`. -/
theorem entryLoop_ok (l : Entries UInt64 ℕ) (hid : ∀ e ∈ l, e.2 < 2 ^ 32) (rest : List UInt8) :
    ∀ (j : ℕ) (m : Entries UInt64 ℕ), l.length + j < 2 ^ 31 →
      entryLoop l.length j m (l.flatMap entryBytes ++ rest) =
        some (l.foldl (fun m e => set e.1 e.2 m) m, rest) := by
  induction l with
  | nil => intro j m _; rfl
  | cons e l ih =>
    intro j m hj
    rw [List.length_cons] at hj ⊢
    have hkey : e.1.toNat < 256 ^ 8 := e.1.toNat_lt
    have hval : e.2 < 256 ^ 4 := hid e List.mem_cons_self
    rw [List.flatMap_cons, entryBytes, List.append_assoc, List.append_assoc, entryLoop]
    simp only [readLE_toLE hkey, readLE_toLE hval]
    rw [if_neg (by omega), UInt64.ofNat_toNat, List.foldl_cons]
    exact ih (fun x hx => hid x (List.mem_cons_of_mem _ hx)) (j + 1) _ (by omega)

theorem length_set_le (k : UInt64) (v : ℕ) (m : Entries UInt64 ℕ) :
    (InsertMap.set k v m).length ≤ m.length + 1 := by
  rcases keys_alter k v (fun _ => v) m with h | h <;> have hl := congrArg List.length h <;>
    simp only [List.length_map, List.length_append, List.length_singleton] at hl <;> unfold InsertMap.set <;> omega

/-- A map that was read has no more entries than rounds, and there were fewer than `2^31`. -/
theorem entryLoop_size : ∀ (rest j : ℕ) (m : Entries UInt64 ℕ) (inFile : List UInt8)
    {m' : Entries UInt64 ℕ} {inFile' : List UInt8}, j < 2 ^ 31 →
    entryLoop rest j m inFile = some (m', inFile') → rest + j < 2 ^ 31 ∧ m'.length ≤ m.length + rest := by
  intro rest
  induction rest with
  | zero =>
    intro j m inFile m' inFile' hj h
    obtain ⟨rfl, -⟩ := Prod.mk.inj (Option.some.inj h)
    exact ⟨by omega, le_rfl⟩
  | succ rest ih =>
    intro j m inFile m' inFile' hj h
    rw [entryLoop] at h
    simp only at h
    split at h
    · cases h
    · next hj' =>
      obtain ⟨hlt, hle⟩ := ih (j + 1) _ _ (by omega) h
      have hset := length_set_le (.ofNat (readLE 8 inFile).1) (readLE 4 (readLE 8 inFile).2).1 m
      omega

/-- What a map is when it can be dumped: different keys, ids of 32 bits. -/
structure MapOK (m : Entries UInt64 ℕ) : Prop where
  keys : (m.map Prod.fst).Nodup
  ids : ∀ e ∈ m, e.2 < 2 ^ 32

/-- **The maps are read back** in the order they were written. -/
theorem recoverLoop_ok (order : IterOrder (UInt64 × ℕ)) (index : List (Entries UInt64 ℕ))
    (hok : ∀ m ∈ index, MapOK m) (hsize : ∀ m ∈ index, m.length < 2 ^ 31) (rest : List UInt8) :
    recoverLoop (List.replicate index.length []) (index.flatMap (mapBytes order) ++ rest) =
      some (index.map order.iter) := by
  induction index with
  | nil => rfl
  | cons m index ih =>
    have hm := hok m List.mem_cons_self
    have hlen := hsize m List.mem_cons_self
    have hperm := order.perm m
    have hids : ∀ e ∈ order.iter m, e.2 < 2 ^ 32 := fun e he => hm.ids e (hperm.mem_iff.1 he)
    have hkeys : (([] ++ order.iter m).map Prod.fst).Nodup := (hperm.map Prod.fst).nodup_iff.2 hm.keys
    have hentry := entryLoop_ok (order.iter m) hids (index.flatMap (mapBytes order) ++ rest) 0 []
      (by rw [hperm.length_eq]; omega)
    rw [foldl_set _ hkeys, List.nil_append, hperm.length_eq] at hentry
    rw [List.length_cons, List.replicate_succ, List.flatMap_cons, mapBytes, recoverLoop]
    simp only [List.append_assoc, readLE_toLE (show m.length < 256 ^ 8 by omega)]
    rw [hentry]
    simp only [Option.bind_eq_bind, Option.bind_some]
    rw [ih (fun x hx => hok x (List.mem_cons_of_mem _ hx)) fun x hx => hsize x (List.mem_cons_of_mem _ hx)]
    rfl

/-- **No map that is read back has `2^31` entries.** -/
theorem recoverLoop_size : ∀ (n : ℕ) (inFile : List UInt8) {index : List (Entries UInt64 ℕ)},
    recoverLoop (List.replicate n []) inFile = some index →
      index.length = n ∧ ∀ m ∈ index, m.length < 2 ^ 31 := by
  intro n
  induction n with
  | zero =>
    intro inFile index h
    obtain rfl := Option.some.inj h
    exact ⟨rfl, by simp⟩
  | succ n ih =>
    intro inFile index h
    rw [List.replicate_succ, recoverLoop] at h
    obtain ⟨⟨m, rest⟩, hm, h⟩ := Option.bind_eq_some_iff.1 h
    obtain ⟨index', hi, h⟩ := Option.bind_eq_some_iff.1 h
    obtain rfl := Option.some.inj h
    obtain ⟨hlt, hle⟩ := entryLoop_size _ 0 [] _ (by omega) hm
    obtain ⟨hl, hs⟩ := ih _ hi
    refine ⟨by simp [hl], ?_⟩
    intro x hx
    rcases List.mem_cons.1 hx with rfl | hx
    · simp only [List.length_nil] at hle
      omega
    · exact hs x hx

/-! ## Queries -/

/-- Maps that read alike answer alike. -/
theorem superLoop_congr {index index' : List (Entries UInt64 ℕ)}
    (h : List.Forall₂ (fun m m' => ∀ w, get? w m' = get? w m) index index') (ws : List UInt64) :
    superLoop index' ws = superLoop index ws := by
  induction h generalizing ws with
  | nil => rfl
  | cons hm _ ih =>
    cases ws with
    | nil => rfl
    | cons w ws => simp only [superLoop, hm w, ih ws]

/-- A key that is not among few. -/
theorem exists_not_key {m : Entries UInt64 ℕ} (hm : m.length < 2 ^ 31) : ∃ w, get? w m = none := by
  by_contra hall
  push Not at hall
  have hsub : (Finset.range (2 ^ 31)).image UInt64.ofNat ⊆ (m.map Prod.fst).toFinset := by
    intro w _
    obtain ⟨e, he, hw⟩ := isSome_get?_iff.1 (Option.isSome_iff_ne_none.2 (hall w))
    exact List.mem_toFinset.2 (List.mem_map.2 ⟨e, he, eq_of_beq hw⟩)
  have hinj : Set.InjOn UInt64.ofNat (Finset.range (2 ^ 31) : Set ℕ) := by
    intro a ha b hb hab
    have hab' := congrArg UInt64.toNat hab
    rw [Finset.coe_range, Set.mem_Iio] at ha hb
    rw [UInt64.toNat_ofNat_of_lt' (by unfold UInt64.size; omega),
      UInt64.toNat_ofNat_of_lt' (by unfold UInt64.size; omega)] at hab'
    exact hab'
  have hcard := (Finset.card_le_card hsub).trans (List.toFinset_card_le _)
  rw [Finset.card_image_of_injOn hinj, Finset.card_range, List.length_map] at hcard
  omega

/-- A key of the larger map that the smaller does not have. -/
theorem exists_key {m m' : Entries UInt64 ℕ} (hm : (m.map Prod.fst).Nodup) (hlt : m'.length < m.length) :
    ∃ w, (get? w m).isSome ∧ get? w m' = none := by
  by_contra hall
  push Not at hall
  have hsub : (m.map Prod.fst).toFinset ⊆ (m'.map Prod.fst).toFinset := by
    intro w hw
    obtain ⟨e, he, rfl⟩ := List.mem_map.1 (List.mem_toFinset.1 hw)
    have hsome := hall e.1 (isSome_get?_iff.2 ⟨e, he, beq_self_eq_true _⟩)
    obtain ⟨e', he', hw'⟩ := isSome_get?_iff.1 (Option.isSome_iff_ne_none.2 hsome)
    exact List.mem_toFinset.2 (List.mem_map.2 ⟨e', he', eq_of_beq hw'⟩)
  have hcard := (Finset.card_le_card hsub).trans (List.toFinset_card_le _)
  rw [List.toFinset_card_of_nodup hm, List.length_map, List.length_map] at hcard
  omega

/-- A query that no map answers. -/
theorem exists_unanswered {index : List (Entries UInt64 ℕ)} (hsize : ∀ m ∈ index, m.length < 2 ^ 31) :
    ∃ ws, ws.length = index.length ∧ ¬ WordFound index ws := by
  induction index with
  | nil => exact ⟨[], rfl, id⟩
  | cons m index ih =>
    obtain ⟨w, hw⟩ := exists_not_key (hsize m List.mem_cons_self)
    obtain ⟨ws, hl, hf⟩ := ih fun x hx => hsize x (List.mem_cons_of_mem _ hx)
    exact ⟨w :: ws, by simp [hl], by simp [WordFound, hw, hf]⟩

/-- **A query that shows the difference** between maps of which one is large and others that are all
small. -/
theorem exists_missed {index index' : List (Entries UInt64 ℕ)} (hl : index'.length = index.length)
    (hkeys : ∀ m ∈ index, (m.map Prod.fst).Nodup) (hlarge : ∃ m ∈ index, 2 ^ 31 ≤ m.length)
    (hsmall : ∀ m ∈ index', m.length < 2 ^ 31) :
    ∃ ws, ws.length = index.length ∧ WordFound index ws ∧ ¬ WordFound index' ws := by
  induction index generalizing index' with
  | nil =>
    obtain ⟨m, hm, -⟩ := hlarge
    exact absurd hm List.not_mem_nil
  | cons m index ih =>
    obtain ⟨m', index', rfl⟩ := List.exists_cons_of_length_eq_add_one hl
    have hl' : index'.length = index.length := by simpa using hl
    have hsmall' : ∀ x ∈ index', x.length < 2 ^ 31 := fun x hx => hsmall x (List.mem_cons_of_mem _ hx)
    by_cases hm : 2 ^ 31 ≤ m.length
    · obtain ⟨w, hw, hw'⟩ := exists_key (hkeys m List.mem_cons_self)
        ((hsmall m' List.mem_cons_self).trans_le hm)
      obtain ⟨ws, hlen, hf⟩ := exists_unanswered hsmall'
      exact ⟨w :: ws, by simp [hlen, hl'], .inl hw, by simp [WordFound, hw', hf]⟩
    · have hlarge' : ∃ x ∈ index, 2 ^ 31 ≤ x.length := by
        obtain ⟨x, hx, hxl⟩ := hlarge
        rcases List.mem_cons.1 hx with rfl | hx
        · exact absurd hxl hm
        · exact ⟨x, hx, hxl⟩
      obtain ⟨w, hw⟩ := exists_not_key (hsmall m' List.mem_cons_self)
      obtain ⟨ws, hlen, hf, hf'⟩ := ih hl' (fun x hx => hkeys x (List.mem_cons_of_mem _ hx)) hlarge' hsmall'
      exact ⟨w :: ws, by simp [hlen], .inr hf, by simp [WordFound, hw, hf']⟩

section Floats

variable [Ratio ρ]

/-- Some ratio is near a key of its map. -/
def FloatFound : List (Entries ρ ℕ) → List ρ → Prop
  | m :: indexFloat, x :: fs => (∃ e ∈ m, Ratio.near e.1 x = true) ∨ FloatFound indexFloat fs
  | _, _ => False

/-- **The lookup of ratios** has a match exactly when one is near a key. -/
theorem floatLoop_found (order : IterOrder (ρ × ℕ)) {indexFloat : List (Entries ρ ℕ)} {fs : List ρ}
    (hl : fs.length = indexFloat.length) (result : Option ℕ) :
    ∃ o, floatLoop order indexFloat fs result = some o ∧
      (o.isSome ↔ result.isSome ∨ FloatFound indexFloat fs) := by
  induction indexFloat generalizing fs result with
  | nil => exact ⟨result, rfl, by simp [FloatFound]⟩
  | cons m indexFloat ih =>
    obtain ⟨x, fs, rfl⟩ := List.exists_cons_of_length_eq_add_one hl
    have hl' : fs.length = indexFloat.length := by simpa using hl
    cases m with
    | nil =>
      obtain ⟨o, ho, hf⟩ := ih hl' result
      exact ⟨o, ho, by rw [hf]; simp [FloatFound]⟩
    | cons e m =>
      have hmem : ∀ y, y ∈ order.iter (e :: m) ↔ y ∈ e :: m := fun y => (order.perm _).mem_iff
      cases hfind : (order.iter (e :: m)).find? fun e => Ratio.near e.1 x with
      | none =>
        obtain ⟨o, ho, hf⟩ := ih hl' result
        have hno : ¬ ∃ y ∈ e :: m, Ratio.near y.1 x = true := by
          rintro ⟨y, hy, hn⟩
          exact List.find?_eq_none.1 hfind y ((hmem y).2 hy) hn
        refine ⟨o, by simp only [floatLoop, hfind, ho], ?_⟩
        rw [hf]
        simp only [FloatFound, hno, false_or]
      | some y =>
        obtain ⟨o, ho, hf⟩ := ih hl' (some y.2)
        have hyes : ∃ y ∈ e :: m, Ratio.near y.1 x = true :=
          ⟨y, (hmem y).1 (List.mem_of_find?_eq_some hfind), by simpa using List.find?_some hfind⟩
        refine ⟨o, by simp only [floatLoop, hfind, ho], ?_⟩
        rw [hf]
        simp only [FloatFound, hyes, true_or, or_true, Option.isSome_some]

theorem floatFound_replicate (k : ℕ) (fs : List ρ) : ¬ FloatFound (List.replicate k ([] : Entries ρ ℕ)) fs := by
  induction k generalizing fs with
  | zero => exact id
  | succ k ih =>
    cases fs with
    | nil => exact id
    | cons x fs => simp [List.replicate_succ, FloatFound, ih]

/-- Some query is near a key exactly when some value is. -/
theorem exists_floatFound_iff {indexFloat : List (Entries ρ ℕ)} :
    (∃ fs, fs.length = indexFloat.length ∧ FloatFound indexFloat fs) ↔
      ∃ m ∈ indexFloat, ∃ e ∈ m, ∃ x, Ratio.near e.1 x = true := by
  constructor
  · rintro ⟨fs, -, hf⟩
    induction indexFloat generalizing fs with
    | nil => exact hf.elim
    | cons m indexFloat ih =>
      cases fs with
      | nil => exact hf.elim
      | cons x fs =>
        rcases hf with ⟨e, he, hn⟩ | hf
        · exact ⟨m, List.mem_cons_self, e, he, x, hn⟩
        · obtain ⟨m', hm', h⟩ := ih fs hf
          exact ⟨m', List.mem_cons_of_mem _ hm', h⟩
  · rintro ⟨m, hm, e, he, x, hn⟩
    -- the same value for every ratio
    refine ⟨List.replicate indexFloat.length x, List.length_replicate, ?_⟩
    induction indexFloat with
    | nil => exact absurd hm List.not_mem_nil
    | cons m' indexFloat ih =>
      rcases List.mem_cons.1 hm with rfl | hm
      · exact .inl ⟨e, he, hn⟩
      · exact .inr (ih hm)

end Floats

/-! ## Every state -/

/-- What `AddFeature` keeps: the number of maps, different keys, ids of 32 bits. -/
structure StateOK (n k : ℕ) (idx : SuperFeatureIndex ρ) : Prop where
  index : idx.index.length = n
  float : idx.indexFloat.length = k
  maps : ∀ m ∈ idx.index, MapOK m

theorem stateOK_new (order : IterOrder (ρ × ℕ)) (n k : ℕ) : StateOK n k (.new order n k) := by
  refine ⟨List.length_replicate, List.length_replicate, fun m hm => ?_⟩
  rw [List.eq_of_mem_replicate hm]
  exact ⟨.nil, by simp⟩

theorem MapOK.set {m : Entries UInt64 ℕ} (h : MapOK m) (w : UInt64) {id : ℕ} (hid : id < 2 ^ 32) :
    MapOK (InsertMap.set w id m) := by
  refine ⟨nodup_alter w id _ h.keys, fun e he => ?_⟩
  rcases snd_of_mem_set he with ⟨e', he', hv⟩ | hv
  · exact hv ▸ h.ids e' he'
  · exact hv ▸ hid

/-- `setLoop` sets in every map. -/
theorem setLoop_inv {K : Type} [BEq K] {id : ℕ} {index : List (Entries K ℕ)} {ks : List K}
    {index' : List (Entries K ℕ)} (h : setLoop id index ks = some index') :
    index'.length = index.length ∧ ∀ m' ∈ index', ∃ m ∈ index, ∃ k, m' = InsertMap.set k id m := by
  induction index generalizing ks index' with
  | nil =>
    obtain rfl := Option.some.inj h
    exact ⟨rfl, by simp⟩
  | cons m index ih =>
    cases ks with
    | nil => cases h
    | cons k ks =>
      obtain ⟨rest, hr, h⟩ := Option.bind_eq_some_iff.1 h
      obtain rfl := Option.some.inj h
      obtain ⟨hl, hm⟩ := ih hr
      refine ⟨by simp [hl], fun m' hm' => ?_⟩
      rcases List.mem_cons.1 hm' with rfl | hm'
      · exact ⟨m, List.mem_cons_self, k, rfl⟩
      · obtain ⟨m₁, hm₁, hk⟩ := hm m' hm'
        exact ⟨m₁, List.mem_cons_of_mem _ hm₁, hk⟩

/-- **A step.** -/
theorem addFeature_state [BEq ρ] {n k : ℕ} {idx idx' : SuperFeatureIndex ρ} {feat : Feature ρ} {id : UInt32}
    (h : StateOK n k idx) (ha : addFeature feat id.toNat idx = some idx') : StateOK n k idx' := by
  unfold addFeature at ha
  split at ha
  · obtain ⟨index, hs, ha⟩ := Option.bind_eq_some_iff.1 ha
    obtain rfl := Option.some.inj ha
    obtain ⟨hl, hm⟩ := setLoop_inv hs
    refine ⟨hl.trans h.index, h.float, fun m' hm' => ?_⟩
    obtain ⟨m, hm, w, rfl⟩ := hm m' hm'
    exact (h.maps m hm).set w id.toNat_lt
  · obtain ⟨indexFloat, hs, ha⟩ := Option.bind_eq_some_iff.1 ha
    obtain rfl := Option.some.inj ha
    exact ⟨h.index, (setLoop_inv hs).1.trans h.float, h.maps⟩
  · cases ha

/-- **A run.** -/
theorem addAll_state [BEq ρ] {n k : ℕ} (adds : List (Feature ρ × UInt32)) :
    ∀ {idx idx' : SuperFeatureIndex ρ}, StateOK n k idx → addAll adds idx = some idx' → StateOK n k idx' := by
  induction adds with
  | nil =>
    intro idx idx' h ha
    obtain rfl := Option.some.inj ha
    exact h
  | cons a adds ih =>
    intro idx idx' h ha
    unfold addAll at ha
    rw [List.foldlM_cons] at ha
    obtain ⟨idx₁, h₁, ha⟩ := Option.bind_eq_some_iff.1 ha
    exact ih (addFeature_state h h₁) ha

/-! ## Dump and recover -/

variable [Ratio ρ]

/-- The keys near the query, each with its id. -/
def nearEntries (indexFloat : List (Entries ρ ℕ)) (fs : List ρ) : List (ρ × ℕ) :=
  (indexFloat.zip fs).flatMap fun p => p.1.filter fun e => Ratio.near e.1 p.2

/-- **`idx'` answers as `idx`**: it has a match for the same queries, with the same id for
super-features, and for ratios when at most one key is near. -/
structure AnswersAs (idx idx' : SuperFeatureIndex ρ) : Prop where
  words : ∀ ws : List UInt64, ws.length = idx.index.length → ∃ r,
    idx.getBaseChunkID (.one (.words ws)) = some r ∧ idx'.getBaseChunkID (.one (.words ws)) = some r
  floats : ∀ fs : List ρ, fs.length = idx.indexFloat.length → ∃ r r',
    idx.getBaseChunkID (.one (.floats fs)) = some r ∧ idx'.getBaseChunkID (.one (.floats fs)) = some r' ∧
      (r'.isSome ↔ r.isSome) ∧ ((nearEntries idx.indexFloat fs).length ≤ 1 → r' = r)

omit [Ratio ρ] in
/-- **What is recovered**: the maps that fit, and no ratio. -/
theorem recoverFromFile_ok (wordOrder : IterOrder (UInt64 × ℕ)) (order : IterOrder (ρ × ℕ)) {n k : ℕ}
    (hn : n < 2 ^ 31) {idx : SuperFeatureIndex ρ} (h : StateOK n k idx) (hsize : ∀ m ∈ idx.index, m.length < 2 ^ 31) :
    recoverFromFile (idx.dumpToFile wordOrder) (.new order n k) =
      some { SuperFeatureIndex.new order n k with index := idx.index.map wordOrder.iter } := by
  have hloop := recoverLoop_ok wordOrder idx.index h.maps hsize []
  rw [List.append_nil, h.index] at hloop
  unfold recoverFromFile recoverOutcome dumpToFile
  rw [h.index]
  simp only [readLE_toLE (show n < 256 ^ 4 by omega), new, List.length_replicate, ne_eq, not_true_eq_false,
    if_false]
  rw [hloop]

omit [Ratio ρ] in
/-- A recovery that returns has read its maps. -/
theorem recoverLoop_of_some {inFile : List UInt8} {idx idx' : SuperFeatureIndex ρ}
    (h : recoverFromFile inFile idx = some idx') :
    ∃ index', recoverLoop idx.index (readLE 4 inFile).2 = some index' ∧ idx' = { idx with index := index' } := by
  unfold recoverFromFile recoverOutcome at h
  dsimp only at h
  by_cases hcount : idx.index.length ≠ (readLE 4 inFile).1
  · rw [if_pos hcount] at h
    cases h
  · rw [if_neg hcount] at h
    cases hloop : recoverLoop idx.index (readLE 4 inFile).2 with
    | none =>
      rw [hloop] at h
      cases h
    | some index' =>
      rw [hloop] at h
      exact ⟨index', rfl, (Option.some.inj h).symm⟩

/-- **The recovered index answers as the dumped one exactly when** every map has fewer than `2^31`
entries and no stored ratio is near any value. -/
theorem recover_dump_iff [BEq ρ] (wordOrder : IterOrder (UInt64 × ℕ)) (order order' : IterOrder (ρ × ℕ))
    {n k : ℕ} (hn : n < 2 ^ 31) (adds : List (Feature ρ × UInt32)) {idx : SuperFeatureIndex ρ}
    (hidx : addAll adds (.new order n k) = some idx) :
    (∃ idx', recoverFromFile (idx.dumpToFile wordOrder) (.new order' n k) = some idx' ∧ AnswersAs idx idx') ↔
      (∀ m ∈ idx.index, m.length < 2 ^ 31) ∧
        ∀ m ∈ idx.indexFloat, ∀ e ∈ m, ∀ x, Ratio.near e.1 x = false := by
  have hok := addAll_state adds (stateOK_new order n k) hidx
  -- the float maps of the recovered index are new ones
  have hfloat : idx.indexFloat.length = (List.replicate k ([] : Entries ρ ℕ)).length :=
    hok.float.trans List.length_replicate.symm
  constructor
  · rintro ⟨idx', hrec, hans⟩
    obtain ⟨index', hloop, rfl⟩ := recoverLoop_of_some hrec
    obtain ⟨hl, hsmall⟩ := recoverLoop_size n _ hloop
    have hl' : index'.length = idx.index.length := hl.trans hok.index.symm
    constructor
    · by_contra hlarge
      push Not at hlarge
      obtain ⟨ws, hws, hf, hf'⟩ := exists_missed hl' (fun m hm => (hok.maps m hm).keys) hlarge hsmall
      obtain ⟨r, hr, hr'⟩ := hans.words ws hws
      obtain ⟨o, ho, hfo, -⟩ := superLoop_ok hws.symm
      obtain ⟨o', ho', hfo', -⟩ := superLoop_ok (hl'.trans hws.symm)
      obtain rfl : o = r := Option.some.inj (ho.symm.trans hr)
      obtain rfl : o' = o := Option.some.inj (ho'.symm.trans hr')
      exact hf' (hfo'.1 (hfo.2 hf))
    · intro m hm e he x
      by_contra hn
      obtain ⟨fs, hfs, hf⟩ := exists_floatFound_iff.2 ⟨m, hm, e, he, x, by simpa using hn⟩
      obtain ⟨r, r', hr, hr', hsome, -⟩ := hans.floats fs hfs
      obtain ⟨o, ho, hfo⟩ := floatLoop_found idx.order hfs none
      obtain ⟨o', ho', hfo'⟩ := floatLoop_found order' (hfs.trans hfloat) none
      obtain rfl : o = r := Option.some.inj (ho.symm.trans hr)
      obtain rfl : o' = r' := Option.some.inj (ho'.symm.trans hr')
      rcases hfo'.1 (hsome.2 (hfo.2 (.inr hf))) with hno | hno
      · cases hno
      · exact floatFound_replicate k fs hno
  · rintro ⟨hsize, hfar⟩
    refine ⟨_, recoverFromFile_ok wordOrder order' hn hok hsize, fun ws hws => ?_, fun fs hfs => ?_⟩
    · obtain ⟨o, ho, -⟩ := superLoop_ok hws.symm
      refine ⟨o, ho, (superLoop_congr ?_ ws).trans ho⟩
      rw [List.forall₂_map_right_iff]
      exact List.forall₂_same.2 fun m hm w => get?_perm (wordOrder.perm m) (hok.maps m hm).keys w
    · obtain ⟨o, ho, hfo⟩ := floatLoop_found idx.order hfs none
      obtain ⟨o', ho', hfo'⟩ := floatLoop_found order' (hfs.trans hfloat) none
      have hno : ¬ FloatFound idx.indexFloat fs := fun hf => by
        obtain ⟨m, hm, e, he, x, hn⟩ := exists_floatFound_iff.1 ⟨fs, hfs, hf⟩
        rw [hfar m hm e he x] at hn
        cases hn
      have h1 : o = none := by simpa [hno] using hfo
      have h2 : o' = none := by simpa [floatFound_replicate] using hfo'
      subst h1 h2
      exact ⟨none, none, ho, ho', Iff.rfl, fun _ => rfl⟩

/-- Super-features only. -/
theorem recover_dump_iff_words : ∃ idx idx' : SuperFeatureIndex ℚ,
    addAll [(.one (.words [7, 8, 9]), 0), (.one (.words [7, 1, 2]), 1)] (.new (.byInsertion _) 3 1) = some idx ∧
      recoverFromFile (idx.dumpToFile (.byInsertion _)) (.new (.byInsertion _) 3 1) = some idx' ∧
      AnswersAs idx idx' := by
  obtain ⟨idx', hrec, hans⟩ := (recover_dump_iff (ρ := ℚ) (.byInsertion _) (.byInsertion _) (.byInsertion _)
    (by omega : 3 < 2 ^ 31) [(.one (.words [7, 8, 9]), 0), (.one (.words [7, 1, 2]), 1)] (k := 1) rfl).2
    ⟨by decide, by simp [SuperFeatureIndex.new]⟩
  exact ⟨_, idx', rfl, hrec, hans⟩

/-- A ratio of 1/2: the recovered index has no match for it. -/
theorem recover_loses_ratio : ∃ idx idx' : SuperFeatureIndex ℚ,
    addAll [(.one (.floats [1 / 2]), 0)] (.new (.byInsertion _) 3 1) = some idx ∧
      recoverFromFile (idx.dumpToFile (.byInsertion _)) (.new (.byInsertion _) 3 1) = some idx' ∧
      idx.getBaseChunkID (.one (.floats [1 / 2])) = some (some 0) ∧
      idx'.getBaseChunkID (.one (.floats [1 / 2])) = some none ∧ ¬ AnswersAs idx idx' := by
  have hget : ({ SuperFeatureIndex.new (.byInsertion (ℚ × ℕ)) 3 1 with
      indexFloat := [[(1 / 2, 0)]] } : SuperFeatureIndex ℚ).getBaseChunkID (.one (.floats [1 / 2])) =
      some (some 0) := by decide +kernel
  refine ⟨_, _, rfl, rfl, hget, rfl, fun hans => ?_⟩
  obtain ⟨r, r', hr, hr', hsome, -⟩ := hans.floats [1 / 2] rfl
  obtain rfl := Option.some.inj (hget.symm.trans hr)
  obtain rfl : none = r' := Option.some.inj hr'
  exact absurd (hsome.2 rfl) (by decide)

end SuperFeatureIndex

end ChunkGrouping
