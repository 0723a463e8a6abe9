import Mathlib.Tactic

/-!
# First occurrences

`eraseDups` keeps the first of equal elements, `idxOf` finds it.

* `eraseDups_concat_of_mem`, `eraseDups_concat_of_notMem`: one more element.
* `eraseDups_append_known`: more elements, of which the last ones are known.
* `eraseDups_split`: what is kept before an element, and then the element.
* `flatten_split`: where the bytes of a kept piece begin.
* `flatten_eraseDups_iff`: pieces that are not empty are all different if dropping repeats drops no element.
-/

namespace FirstOccurrence

variable {α : Type*} [BEq α] [LawfulBEq α] {as bs : List α} {a : α}

theorem eraseDups_concat_of_mem (h : a ∈ as) : (as ++ [a]).eraseDups = as.eraseDups := by
  rw [List.eraseDups_append, show [a].removeAll as = [] by simp [List.removeAll, h], List.eraseDups_nil,
    List.append_nil]

theorem eraseDups_concat_of_notMem (h : a ∉ as) : (as ++ [a]).eraseDups = as.eraseDups ++ [a] := by
  rw [List.eraseDups_append, show [a].removeAll as = [a] by simp [List.removeAll, h], List.eraseDups_cons]
  rfl

theorem eraseDups_sublist (as : List α) : as.eraseDups.Sublist as := by
  induction as using List.reverseRecOn with
  | nil => exact .slnil
  | append_singleton as a ih =>
    by_cases h : a ∈ as
    · rw [eraseDups_concat_of_mem h]
      exact ih.trans (List.sublist_append_left _ _)
    · rw [eraseDups_concat_of_notMem h]
      exact ih.append (List.Sublist.refl _)

/-- The kept elements only grow. -/
theorem eraseDups_prefix (as bs : List α) : as.eraseDups <+: (as ++ bs).eraseDups := by
  rw [List.eraseDups_append]
  exact List.prefix_append _ _

/-- **Only what is new is kept** of more elements. -/
theorem eraseDups_append_known (bs : List α) {ts : List α} (h : ∀ t ∈ ts, t ∈ as) :
    ∃ more, (as ++ (bs ++ ts)).eraseDups = as.eraseDups ++ more ∧ more.Sublist bs := by
  refine ⟨((bs ++ ts).removeAll as).eraseDups, List.eraseDups_append, (eraseDups_sublist _).trans ?_⟩
  have hts : ts.filter (fun t => !as.elem t) = [] := by simpa using h
  rw [List.removeAll, List.filter_append, hts, List.append_nil]
  exact List.filter_sublist

theorem idxOf_append_of_mem (h : a ∈ as) : (as ++ bs).idxOf a = as.idxOf a := by
  rw [List.idxOf_append, if_pos h]

theorem idxOf_concat_of_notMem (h : a ∉ as) : (as ++ [a]).idxOf a = as.length := by
  rw [List.idxOf_append, if_neg h, List.idxOf_cons_self, Nat.zero_add]

/-- The element at its first index. -/
theorem getElem?_idxOf (h : a ∈ as) : as[as.idxOf a]? = some a := by
  have hlt := List.idxOf_lt_length_of_mem h
  rw [List.getElem?_eq_getElem hlt, List.getElem_idxOf]

theorem idxOf_le_of_getElem? {k : ℕ} (h : as[k]? = some a) : as.idxOf a ≤ k := by
  by_contra hlt
  obtain ⟨hk, rfl⟩ := List.getElem?_eq_some_iff.1 h
  have hbefore : k < as.findIdx (· == as[k]) := by simpa [List.idxOf] using hlt
  have hne := List.not_of_lt_findIdx hbefore
  simp at hne

/-- Before its first index an element is not. -/
theorem notMem_take_idxOf : a ∉ as.take (as.idxOf a) := by
  intro h
  obtain ⟨k, hk, he⟩ := List.getElem_of_mem h
  rw [List.length_take] at hk
  have hget : as[k]? = some a := by
    rw [← he, List.getElem_take]
    exact List.getElem?_eq_getElem (by omega)
  have := idxOf_le_of_getElem? hget
  omega

/-- **What is kept before an element, and then the element.** -/
theorem eraseDups_split (h : a ∈ as) : (as.take (as.idxOf a)).eraseDups ++ [a] <+: as.eraseDups := by
  have hlt := List.idxOf_lt_length_of_mem h
  have hsplit : as = as.take (as.idxOf a) ++ [a] ++ as.drop (as.idxOf a + 1) := by
    conv_lhs => rw [← List.take_append_drop (as.idxOf a) as, List.drop_eq_getElem_cons hlt, List.getElem_idxOf]
    simp
  rw [← eraseDups_concat_of_notMem notMem_take_idxOf]
  conv_rhs => rw [hsplit]
  exact eraseDups_prefix _ _

/-- **Where the bytes of a kept piece begin**, when the kept pieces lie one behind the other. -/
theorem flatten_split {β : Type*} [BEq β] [LawfulBEq β] {ps : List (List β)} {p : List β} (h : p ∈ ps) :
    ∃ after, ps.eraseDups.flatten = (ps.take (ps.idxOf p)).eraseDups.flatten ++ (p ++ after) := by
  obtain ⟨qs, hqs⟩ := eraseDups_split h
  exact ⟨qs.flatten, by rw [← hqs]; simp⟩

theorem nodup_eraseDups (as : List α) : as.eraseDups.Nodup := by
  induction as using List.reverseRecOn with
  | nil => exact List.nodup_nil
  | append_singleton as a ih =>
    by_cases h : a ∈ as
    · rwa [eraseDups_concat_of_mem h]
    · rw [eraseDups_concat_of_notMem h, ← List.concat_eq_append]
      exact ih.concat (by rwa [List.mem_eraseDups])

theorem eraseDups_eq_self (h : as.Nodup) : as.eraseDups = as := by
  induction as using List.reverseRecOn with
  | nil => rfl
  | append_singleton as a ih =>
    have ha : a ∉ as := fun hmem => List.disjoint_of_nodup_append h hmem (List.mem_singleton_self a)
    rw [eraseDups_concat_of_notMem ha, ih (h.sublist (List.sublist_append_left _ _))]

/-- Dropping pieces that are not empty shortens the whole. -/
theorem eq_of_flatten_sublist {β : Type*} {ps qs : List (List β)} (h : ps.Sublist qs) (hne : ∀ q ∈ qs, q ≠ [])
    (hlen : qs.flatten.length ≤ ps.flatten.length) : ps = qs := by
  induction h with
  | slnil => rfl
  | @cons ps qs q h _ =>
    have hpos := List.length_pos_iff.2 (hne q List.mem_cons_self)
    have hle := h.flatten.length_le
    rw [List.flatten_cons, List.length_append] at hlen
    omega
  | @cons_cons ps qs q h ih =>
    rw [List.flatten_cons, List.flatten_cons, List.length_append, List.length_append] at hlen
    rw [ih (fun p hp => hne p (List.mem_cons_of_mem _ hp)) (by omega)]

/-- **All pieces are different** exactly if the kept ones are as long as all. -/
theorem flatten_eraseDups_iff {β : Type*} [BEq β] [LawfulBEq β] {ps : List (List β)} (hne : ∀ p ∈ ps, p ≠ []) :
    ps.eraseDups.flatten = ps.flatten ↔ ps.Nodup := by
  refine ⟨fun h => ?_, fun h => by rw [eraseDups_eq_self h]⟩
  rw [← eq_of_flatten_sublist (eraseDups_sublist ps) hne (by rw [h])]
  exact nodup_eraseDups ps

end FirstOccurrence
