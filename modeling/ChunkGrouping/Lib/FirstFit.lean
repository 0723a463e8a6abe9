import ChunkGrouping.Lib.InsertMap

/-!
# First fit over a row of maps

A row of maps, one for each position of a key list. Adding a list sets each of its keys in
the map of its position; a lookup takes the first position whose map has its key. What is
found is what a search over all lists added so far finds: the value of the latest list that
agrees at the first position at which any does.

* `firstFit_build`: the lookup is the search.
* `search_eq_some_iff`, `search_eq_none_iff`: what the search finds.
* `Spaced`: lists are added only when the lookup has missed. Then a list that was added is
  found again (`Spaced.search_self`), and what was found is found again (`Spaced.search_append`)
  unless a list came in between that agrees earlier (`search_captured`).
-/

namespace FirstFit

open InsertMap

variable {K V : Type*} [BEq K]

/-- The lookup. -/
def firstFit : List (Entries K V) → List K → Option V
  | m :: maps, w :: ws => (get? w m).or (firstFit maps ws)
  | _, _ => none

/-- Each key set in its map. -/
def add (ks : List K) (v : V) (maps : List (Entries K V)) : List (Entries K V) :=
  List.zipWith (fun k m => set k v m) ks maps

/-- The maps after a history of lists and their values, the oldest first. -/
def build (n : ℕ) (h : List (List K × V)) : List (Entries K V) :=
  h.foldl (fun maps e => add e.1 e.2 maps) (List.replicate n [])

/-- The value of the latest list that agrees with `q` at position `k`. -/
def latest (k : ℕ) (q : List K) (h : List (List K × V)) : Option V :=
  (h.reverse.find? fun e => e.1[k]? == q[k]?).map Prod.snd

/-- **The search over the history**: the first position at which a list agrees, the latest such list. -/
def search (h : List (List K × V)) (q : List K) : Option V :=
  (List.range q.length).findSome? fun k => latest k q h

omit [BEq K] in
theorem findSome?_range {n : ℕ} {f : ℕ → Option V} {v : V} :
    (List.range n).findSome? f = some v ↔ ∃ k < n, f k = some v ∧ ∀ j < k, f j = none := by
  induction n with
  | zero => simp
  | succ n ih =>
    rw [List.range_succ, List.findSome?_append, Option.or_eq_some_iff, ih, List.findSome?_eq_none_iff]
    constructor
    · rintro (⟨k, hk, hv, hj⟩ | ⟨hno, hv⟩)
      · exact ⟨k, by omega, hv, hj⟩
      · exact ⟨n, Nat.lt_succ_self n, by simpa using hv, fun j hj => hno j (List.mem_range.2 hj)⟩
    · rintro ⟨k, hk, hv, hj⟩
      rcases Nat.lt_or_ge k n with hlt | hge
      · exact .inl ⟨k, hlt, hv, hj⟩
      · obtain rfl : k = n := by omega
        exact .inr ⟨fun j hlt => hj j (List.mem_range.1 hlt), by simpa using hv⟩

omit [BEq K] in
theorem findSome?_range_congr {n : ℕ} {f g : ℕ → Option V} (h : ∀ k < n, f k = g k) :
    (List.range n).findSome? f = (List.range n).findSome? g := by
  ext v
  rw [findSome?_range, findSome?_range]
  refine exists_congr fun k => and_congr_right fun hk => ?_
  rw [h k hk]
  refine and_congr_right fun _ => forall₂_congr fun j hj => ?_
  rw [h j (hj.trans hk)]

/-! ## The lookup is the search -/

theorem build_concat (n : ℕ) (h : List (List K × V)) (e : List K × V) :
    build n (h ++ [e]) = add e.1 e.2 (build n h) := by
  unfold build
  rw [List.foldl_append]
  rfl

theorem length_build {n : ℕ} {h : List (List K × V)} (hn : ∀ e ∈ h, e.1.length = n) : (build n h).length = n := by
  induction h using List.reverseRecOn with
  | nil => exact List.length_replicate
  | append_singleton h e ih =>
    rw [build_concat, add, List.length_zipWith, ih fun x hx => hn x (List.mem_append_left _ hx),
      hn e (by simp), Nat.min_self]

theorem firstFit_append {maps maps' : List (Entries K V)} {q q' : List K} (hl : maps.length = q.length) :
    firstFit (maps ++ maps') (q ++ q') = (firstFit maps q).or (firstFit maps' q') := by
  induction maps generalizing q with
  | nil =>
    obtain rfl := List.length_eq_zero_iff.1 hl.symm
    rfl
  | cons m maps ih =>
    obtain ⟨w, q, rfl⟩ := List.exists_cons_of_length_eq_add_one hl.symm
    rw [List.cons_append, List.cons_append, firstFit, firstFit, ih (by simpa using hl), Option.or_assoc]

theorem add_append {maps maps' : List (Entries K V)} {q q' : List K} (hl : maps.length = q.length) (v : V) :
    add (q ++ q') v (maps ++ maps') = add q v maps ++ add q' v maps' :=
  List.zipWith_append hl.symm

variable [LawfulBEq K]

/-- The keys of a map of the row are different. -/
theorem nodup_build (n : ℕ) (h : List (List K × V)) : ∀ m ∈ build n h, (m.map Prod.fst).Nodup := by
  induction h using List.reverseRecOn with
  | nil =>
    intro m hm
    rw [List.eq_of_mem_replicate hm]
    exact List.nodup_nil
  | append_singleton h e ih =>
    intro m hm
    rw [build_concat, add, List.mem_iff_getElem?] at hm
    obtain ⟨k, hk⟩ := hm
    obtain ⟨w, m', -, hm', rfl⟩ := List.getElem?_zipWith_eq_some.1 hk
    exact nodup_alter w e.2 _ (ih m' (List.mem_of_getElem? hm'))

/-- **A map of the row** reads the latest list with the key there. -/
theorem get?_build {n k : ℕ} (hk : k < n) {h : List (List K × V)} (hn : ∀ e ∈ h, e.1.length = n) (w : K) :
    ∃ m, (build n h)[k]? = some m ∧ get? w m = (h.reverse.find? fun e => e.1[k]? == some w).map Prod.snd := by
  induction h using List.reverseRecOn with
  | nil => exact ⟨[], by simp [build, hk], rfl⟩
  | append_singleton h e ih =>
    obtain ⟨m, hm, hget⟩ := ih fun x hx => hn x (List.mem_append_left _ hx)
    have hlen : k < e.1.length := by
      rw [hn e (by simp)]
      exact hk
    refine ⟨set e.1[k] e.2 m, ?_, ?_⟩
    · rw [build_concat, add, List.getElem?_zipWith, hm, List.getElem?_eq_getElem hlen]
    · rw [get?_set, List.reverse_append, List.reverse_singleton, List.singleton_append, List.find?_cons,
        List.getElem?_eq_getElem hlen, hget]
      by_cases hw : e.1[k] = w
      · simp [hw]
      · have hb : (e.1[k] == w) = false := beq_eq_false_iff_ne.2 hw
        simp [hb]

omit [LawfulBEq K] in
theorem firstFit_eq {maps : List (Entries K V)} {q : List K} (hl : maps.length = q.length) :
    firstFit maps q =
      (List.range q.length).findSome? fun k => maps[k]?.bind fun m => q[k]?.bind fun w => get? w m := by
  induction maps generalizing q with
  | nil =>
    obtain rfl := List.length_eq_zero_iff.1 hl.symm
    rfl
  | cons m maps ih =>
    obtain ⟨w, q, rfl⟩ := List.exists_cons_of_length_eq_add_one hl.symm
    rw [firstFit, ih (by simpa using hl), List.length_cons, List.range_succ_eq_map, List.findSome?_cons,
      List.findSome?_map]
    simp only [List.getElem?_cons_zero, Option.bind_some]
    cases get? w m with
    | some v => rfl
    | none => rfl

/-- **The lookup is the search.** -/
theorem firstFit_build {n : ℕ} {h : List (List K × V)} (hn : ∀ e ∈ h, e.1.length = n) {q : List K}
    (hq : q.length = n) : firstFit (build n h) q = search h q := by
  rw [firstFit_eq ((length_build hn).trans hq.symm)]
  unfold search
  refine findSome?_range_congr fun k hlt => ?_
  obtain ⟨m, hm, hget⟩ := get?_build (hq ▸ hlt) hn q[k]
  rw [hm, Option.bind_some, List.getElem?_eq_getElem hlt, Option.bind_some, hget]
  unfold latest
  rw [List.getElem?_eq_getElem hlt]

/-! ## What the search finds -/

theorem latest_isSome_iff {k : ℕ} {q : List K} {h : List (List K × V)} :
    (latest k q h).isSome ↔ ∃ e ∈ h, e.1[k]? = q[k]? := by
  unfold latest
  rw [Option.isSome_map, List.find?_isSome]
  simp

theorem mem_of_latest {k : ℕ} {q : List K} {h : List (List K × V)} {v : V} (hv : latest k q h = some v) :
    ∃ e ∈ h, e.1[k]? = q[k]? ∧ e.2 = v := by
  obtain ⟨e, he, rfl⟩ := Option.map_eq_some_iff.1 hv
  exact ⟨e, List.mem_reverse.1 (List.mem_of_find?_eq_some he), by simpa using List.find?_some he, rfl⟩

theorem search_eq_none_iff {h : List (List K × V)} {q : List K} :
    search h q = none ↔ ∀ k < q.length, ∀ e ∈ h, e.1[k]? ≠ q[k]? := by
  unfold search
  rw [List.findSome?_eq_none_iff]
  refine forall_congr' fun k => ?_
  rw [List.mem_range]
  refine imp_congr_right fun _ => ?_
  rw [← Option.not_isSome_iff_eq_none, latest_isSome_iff]
  push Not
  rfl

theorem search_eq_some_iff {h : List (List K × V)} {q : List K} {v : V} :
    search h q = some v ↔
      ∃ k < q.length, latest k q h = some v ∧ ∀ j < k, ∀ e ∈ h, e.1[j]? ≠ q[j]? := by
  unfold search
  rw [findSome?_range]
  refine exists_congr fun k => and_congr_right fun _ => and_congr_right fun _ => forall₂_congr fun j _ => ?_
  rw [← Option.not_isSome_iff_eq_none, latest_isSome_iff]
  push Not
  rfl

/-! ## Added on a miss -/

omit [BEq K] [LawfulBEq K] in
/-- No two lists agree at a position. -/
def Spaced (n : ℕ) (h : List (List K × V)) : Prop := h.Pairwise fun e e' => ∀ k < n, e.1[k]? ≠ e'.1[k]?

section Spaced

variable {n k : ℕ} {h h' : List (List K × V)} {q : List K} {e e' : List K × V} {v : V}

omit [BEq K] [LawfulBEq K] in
theorem Spaced.eq_of_agree (hs : Spaced n h) (he : e ∈ h) (he' : e' ∈ h) (hk : k < n)
    (hag : e.1[k]? = e'.1[k]?) : e = e' := by
  by_contra hne
  have hsymm : Std.Symm fun a b : List K × V => ∀ k < n, a.1[k]? ≠ b.1[k]? :=
    ⟨fun _ _ hr j hj heq => hr j hj heq.symm⟩
  exact List.Pairwise.forall hs he he' hne k hk hag

/-- A list that missed keeps the history spaced. -/
theorem Spaced.concat (hs : Spaced n h) (hq : q.length = n) (hmiss : search h q = none) (v : V) :
    Spaced n (h ++ [(q, v)]) := by
  refine List.pairwise_append.2 ⟨hs, List.pairwise_singleton _ _, fun e he x hx k hk => ?_⟩
  rw [List.mem_singleton.1 hx]
  exact search_eq_none_iff.1 hmiss k (by omega) e he

/-- **The list that agrees** is the latest that does. -/
theorem Spaced.latest_eq (hs : Spaced n h) (he : e ∈ h) (hk : k < n) (hag : e.1[k]? = q[k]?) :
    latest k q h = some e.2 := by
  obtain ⟨w, hw⟩ := Option.isSome_iff_exists.1 (latest_isSome_iff.2 ⟨e, he, hag⟩)
  obtain ⟨x, hx, hxq, rfl⟩ := mem_of_latest hw
  rw [hw, hs.eq_of_agree he hx hk (hag.trans hxq.symm)]

/-- **A list that was added is found again.** -/
theorem Spaced.search_self (hs : Spaced n h) (hn : 0 < n) (he : e ∈ h) (hlen : e.1.length = n) :
    search h e.1 = some e.2 :=
  search_eq_some_iff.2 ⟨0, by omega, hs.latest_eq he hn rfl, fun j hj => absurd hj (Nat.not_lt_zero j)⟩

/-- **What was found is found again** when no list came that agrees earlier. -/
theorem Spaced.search_append (hs : Spaced n (h ++ h')) (hq : q.length = n) (hk : k < n)
    (hfound : latest k q h = some v) (hfirst : ∀ j < k, ∀ e ∈ h, e.1[j]? ≠ q[j]?)
    (hno : ∀ j < k, ∀ e ∈ h', e.1[j]? ≠ q[j]?) : search (h ++ h') q = some v := by
  obtain ⟨e, he, hag, rfl⟩ := mem_of_latest hfound
  refine search_eq_some_iff.2 ⟨k, by omega, hs.latest_eq (List.mem_append_left _ he) hk hag, fun j hj x hx => ?_⟩
  rcases List.mem_append.1 hx with hx | hx
  · exact hfirst j hj x hx
  · exact hno j hj x hx

/-- **A list that agrees earlier captures the lookup.** -/
theorem search_captured (hk : k < q.length) (he : e ∈ h') (hag : e.1[k]? = q[k]?)
    (hfirst : ∀ j ≤ k, ∀ e ∈ h, e.1[j]? ≠ q[j]?) : ∃ e' ∈ h', search (h ++ h') q = some e'.2 := by
  have hsome : (search (h ++ h') q).isSome := by
    by_contra hnone
    exact search_eq_none_iff.1 (Option.not_isSome_iff_eq_none.1 hnone) k hk e (List.mem_append_right _ he) hag
  obtain ⟨v, hv⟩ := Option.isSome_iff_exists.1 hsome
  obtain ⟨i, hi, hlatest, hno⟩ := search_eq_some_iff.1 hv
  obtain ⟨x, hx, hxq, rfl⟩ := mem_of_latest hlatest
  have hik : i ≤ k := by
    by_contra hlt
    exact hno k (by omega) e (List.mem_append_right _ he) hag
  rcases List.mem_append.1 hx with hx | hx
  · exact absurd hxq (hfirst i hik x hx)
  · exact ⟨x, hx, hv⟩

end Spaced

end FirstFit
