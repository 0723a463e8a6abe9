import Mathlib.Tactic

/-!
# Maps that are only inserted into

A hash map without erasure, as the list of its entries in the order in which their
keys came. A key that is set again keeps its place. What a loop over the map meets
first is up to the implementation: an `IterOrder`.

* `keys_alter`: setting a key keeps all keys.
* `get?_set`, `isSome_get?_alter`: what was found is found after any insertion.
-/

namespace InsertMap

/-- The entries of a map. -/
abbrev Entries (K V : Type*) := List (K × V)

/-- The order in which a loop meets the entries: any rearrangement of them. -/
structure IterOrder (α : Type*) where
  iter : List α → List α
  perm : ∀ l, (iter l).Perm l

/-- First come, first met. -/
def IterOrder.byInsertion (α : Type*) : IterOrder α := ⟨id, fun _ => .refl _⟩

variable {K V : Type*} [BEq K]

/-- `m.at(k)`, none when `m.count(k) == 0`. -/
def get? (k : K) : Entries K V → Option V
  | [] => none
  | (k', v) :: m => if k' == k then some v else get? k m

/-- `m[k] = f(m[k])`, a new key starting from `v₀`. -/
def alter (k : K) (v₀ : V) (f : V → V) : Entries K V → Entries K V
  | [] => [(k, f v₀)]
  | (k', v) :: m => if k' == k then (k', f v) :: m else (k', v) :: alter k v₀ f m

/-- `m[k] = v`. -/
def set (k : K) (v : V) (m : Entries K V) : Entries K V := alter k v (fun _ => v) m

theorem isSome_get?_iff {k : K} {m : Entries K V} : (get? k m).isSome ↔ ∃ e ∈ m, e.1 == k := by
  induction m with
  | nil => simp [get?]
  | cons e m ih =>
    obtain ⟨k', v⟩ := e
    by_cases h : k' == k <;> simp [get?, h, ih]

theorem mem_of_get? {k : K} {v : V} {m : Entries K V} (h : get? k m = some v) : ∃ e ∈ m, e.2 = v := by
  induction m with
  | nil => simp [get?] at h
  | cons e m ih =>
    obtain ⟨k', w⟩ := e
    by_cases hk : k' == k
    · exact ⟨(k', w), List.mem_cons_self, by simpa [get?, hk] using h⟩
    · obtain ⟨e, he, hv⟩ := ih (by simpa [get?, hk] using h)
      exact ⟨e, List.mem_cons_of_mem _ he, hv⟩

/-- A value of the map after `m[k] = f(m[k])` was there before, or is made by `f`. -/
theorem snd_of_mem_alter {k : K} {v₀ : V} {f : V → V} {m : Entries K V} {e : K × V}
    (h : e ∈ alter k v₀ f m) :
    (∃ e' ∈ m, e'.2 = e.2) ∨ (∃ e' ∈ m, e.2 = f e'.2) ∨ e.2 = f v₀ := by
  induction m with
  | nil =>
    rw [List.mem_singleton.1 h]; exact .inr (.inr rfl)
  | cons e' m ih =>
    obtain ⟨k', w⟩ := e'
    by_cases hk : k' == k
    · rw [alter, if_pos hk] at h
      rcases List.mem_cons.1 h with rfl | h
      · exact .inr (.inl ⟨_, List.mem_cons_self, rfl⟩)
      · exact .inl ⟨e, List.mem_cons_of_mem _ h, rfl⟩
    · rw [alter, if_neg hk] at h
      rcases List.mem_cons.1 h with rfl | h
      · exact .inl ⟨_, List.mem_cons_self, rfl⟩
      · rcases ih h with ⟨e', he', hv⟩ | ⟨e', he', hv⟩ | hv
        · exact .inl ⟨e', List.mem_cons_of_mem _ he', hv⟩
        · exact .inr (.inl ⟨e', List.mem_cons_of_mem _ he', hv⟩)
        · exact .inr (.inr hv)

/-- A value of the map after `m[k] = v` was there before, or is `v`. -/
theorem snd_of_mem_set {k : K} {v : V} {m : Entries K V} {e : K × V} (h : e ∈ set k v m) :
    (∃ e' ∈ m, e'.2 = e.2) ∨ e.2 = v := by
  rcases snd_of_mem_alter h with h | ⟨_, _, h⟩ | h
  · exact .inl h
  · exact .inr h
  · exact .inr h

/-- **Keys stay**, a new one comes last. -/
theorem keys_alter (k : K) (v₀ : V) (f : V → V) (m : Entries K V) :
    (alter k v₀ f m).map Prod.fst = m.map Prod.fst ∨
      (alter k v₀ f m).map Prod.fst = m.map Prod.fst ++ [k] := by
  induction m with
  | nil => exact .inr rfl
  | cons e m ih =>
    obtain ⟨k', v⟩ := e
    by_cases h : k' == k
    · exact .inl (by simp [alter, h])
    · rcases ih with ih | ih <;> simp [alter, h, ih]

theorem mem_keys_alter (k : K) (v₀ : V) (f : V → V) {m : Entries K V} {k' : K}
    (h : k' ∈ m.map Prod.fst) : k' ∈ (alter k v₀ f m).map Prod.fst := by
  rcases keys_alter k v₀ f m with he | he
  · rw [he]; exact h
  · rw [he]; exact List.mem_append_left _ h

/-- What is found is found after any insertion. -/
theorem isSome_get?_alter (k : K) (v₀ : V) (f : V → V) {m : Entries K V} {k' : K}
    (h : (get? k' m).isSome) : (get? k' (alter k v₀ f m)).isSome := by
  obtain ⟨e, he, hk⟩ := isSome_get?_iff.1 h
  obtain ⟨e', he', hk'⟩ := List.mem_map.1 (mem_keys_alter k v₀ f (List.mem_map_of_mem (f := Prod.fst) he))
  exact isSome_get?_iff.2 ⟨e', he', by rw [hk']; exact hk⟩

/-- What was set is found. -/
theorem isSome_get?_alter_self [ReflBEq K] (k : K) (v₀ : V) (f : V → V) (m : Entries K V) :
    (get? k (alter k v₀ f m)).isSome := by
  induction m with
  | nil => simp [alter, get?]
  | cons e m ih =>
    obtain ⟨k', v⟩ := e
    by_cases h : k' == k <;> simp [alter, get?, h, ih]

/-- **Reading after an insertion.** -/
theorem get?_alter [LawfulBEq K] (k k' : K) (v₀ : V) (f : V → V) (m : Entries K V) :
    get? k' (alter k v₀ f m) = if k == k' then some (f ((get? k m).getD v₀)) else get? k' m := by
  induction m with
  | nil => by_cases h : k = k' <;> simp [alter, get?, h]
  | cons e m ih =>
    obtain ⟨x, v⟩ := e
    by_cases hx : x = k
    · subst hx
      by_cases h : x = k' <;> simp [alter, get?, h]
    · by_cases h : k = k'
      · subst h; simp [alter, get?, hx, ih]
      · have hb : (x == k) = false := beq_eq_false_iff_ne.2 hx
        by_cases h' : x == k' <;> simp [alter, get?, hb, h, h', ih]

theorem get?_set [LawfulBEq K] (k k' : K) (v : V) (m : Entries K V) :
    get? k' (set k v m) = if k == k' then some v else get? k' m := get?_alter k k' v _ m

/-- With all keys different, an entry is what its key reads. -/
theorem get?_eq_some_iff [LawfulBEq K] {k : K} {v : V} {m : Entries K V}
    (hm : (m.map Prod.fst).Nodup) : get? k m = some v ↔ (k, v) ∈ m := by
  induction m with
  | nil => simp [get?]
  | cons e m ih =>
    obtain ⟨x, w⟩ := e
    rw [List.map_cons, List.nodup_cons] at hm
    by_cases h : x = k
    · subst h
      have hno : (x, v) ∉ m := fun hmem => hm.1 (List.mem_map.2 ⟨(x, v), hmem, rfl⟩)
      simp [get?, hno, eq_comm]
    · have : k ≠ x := fun he => h he.symm
      simp [get?, h, this, ih hm.2]

/-- Insertion keeps the keys different. -/
theorem nodup_alter [LawfulBEq K] (k : K) (v₀ : V) (f : V → V) {m : Entries K V}
    (hm : (m.map Prod.fst).Nodup) : ((alter k v₀ f m).map Prod.fst).Nodup := by
  induction m with
  | nil => simp [alter]
  | cons e m ih =>
    obtain ⟨x, v⟩ := e
    have hm' := hm
    rw [List.map_cons, List.nodup_cons] at hm'
    by_cases h : x = k
    · simpa [alter, h] using hm
    · have hcons : (alter k v₀ f ((x, v) :: m)).map Prod.fst = x :: (alter k v₀ f m).map Prod.fst := by
        simp [alter, h]
      rw [hcons, List.nodup_cons]
      refine ⟨fun hx => ?_, ih hm'.2⟩
      rcases keys_alter k v₀ f m with he | he
      · rw [he] at hx; exact hm'.1 hx
      · rw [he] at hx
        rcases List.mem_append.1 hx with hx | hx
        · exact hm'.1 hx
        · exact h (List.mem_singleton.1 hx)

/-- A new key comes last. -/
theorem set_of_not_mem [LawfulBEq K] {k : K} (v : V) {m : Entries K V} (h : k ∉ m.map Prod.fst) :
    set k v m = m ++ [(k, v)] := by
  unfold set
  induction m with
  | nil => rfl
  | cons e m ih =>
    obtain ⟨x, w⟩ := e
    rw [List.map_cons, List.mem_cons, not_or] at h
    rw [alter, if_neg (by simpa using Ne.symm h.1), ih h.2, List.cons_append]

/-- **Inserting different keys** one after the other. -/
theorem foldl_set [LawfulBEq K] (l : Entries K V) {m : Entries K V} (h : ((m ++ l).map Prod.fst).Nodup) :
    l.foldl (fun m e => set e.1 e.2 m) m = m ++ l := by
  induction l generalizing m with
  | nil => simp
  | cons e l ih =>
    have hnd := h
    rw [List.map_append, List.map_cons, List.nodup_middle, List.nodup_cons, List.mem_append, not_or] at hnd
    have hset := set_of_not_mem e.2 hnd.1.1
    rw [List.foldl_cons, hset, ih (by simpa using h), List.append_assoc, List.singleton_append]

/-- Maps with the same entries read alike. -/
theorem get?_perm [LawfulBEq K] {m m' : Entries K V} (hp : m'.Perm m) (hm : (m.map Prod.fst).Nodup) (k : K) :
    get? k m' = get? k m := by
  have hm' : (m'.map Prod.fst).Nodup := (hp.map Prod.fst).nodup_iff.2 hm
  ext v
  rw [get?_eq_some_iff hm', get?_eq_some_iff hm]
  exact hp.mem_iff

end InsertMap
