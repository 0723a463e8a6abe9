import Mathlib.Tactic

/-!
# Batches and groups

* `batches g l` cuts a list into consecutive runs of `g`, the last one shorter when
  `g` does not divide the length. The recursion a loop with step `g` follows is
  `batches_cons`.
* `take_flatMap`, `drop_flatMap`: pieces of one width, up to one of them and from it on.
* `flatMap_filter_perm`: grouping a list by a key rearranges it, and nothing is lost
  or doubled when every key has one group.
-/

namespace Batching

variable {α : Type*}

/-- The runs of `g` elements of `l`, in order. -/
def batches (g : ℕ) (l : List α) : List (List α) :=
  (List.range ((l.length + (g - 1)) / g)).map fun j => (l.drop (g * j)).take g

@[simp] theorem batches_nil (g : ℕ) : batches g ([] : List α) = [] := by
  have hnone : (g - 1) / g = 0 := by
    rcases Nat.eq_zero_or_pos g with rfl | hg
    · rfl
    · exact Nat.div_eq_of_lt (by omega)
  unfold batches
  rw [List.length_nil, Nat.zero_add, hnone]
  rfl

/-- **The first batch, and the batches of what is left.** -/
theorem batches_cons {g : ℕ} (hg : 0 < g) {l : List α} (hl : l ≠ []) :
    batches g l = l.take g :: batches g (l.drop g) := by
  have hlen : 0 < l.length := List.length_pos_iff.2 hl
  have hcount : (l.length + (g - 1)) / g = ((l.drop g).length + (g - 1)) / g + 1 := by
    rw [List.length_drop]
    rcases Nat.le_total g l.length with h | h
    · rw [← Nat.add_div_right _ hg]; congr 1; omega
    · rw [Nat.sub_eq_zero_of_le h, Nat.zero_add, Nat.div_eq_of_lt (by omega : g - 1 < g)]
      exact Nat.div_eq_of_lt_le (by omega) (by omega)
  unfold batches
  rw [hcount, List.range_succ_eq_map, List.map_cons, List.map_map]
  refine congrArg₂ _ (by simp) (List.map_congr_left fun j _ => ?_)
  simp only [Function.comp_apply, List.drop_drop]
  congr 2
  rw [Nat.mul_succ, Nat.add_comm]

theorem flatten_batches {g : ℕ} (hg : 0 < g) (l : List α) : (batches g l).flatten = l := by
  induction h : l.length using Nat.strong_induction_on generalizing l with
  | _ n ih =>
    by_cases hl : l = []
    · subst hl; simp
    · have hlen : 0 < l.length := List.length_pos_iff.2 hl
      rw [batches_cons hg hl, List.flatten_cons,
        ih (l.drop g).length (by rw [List.length_drop]; omega) _ rfl, List.take_append_drop]

/-- No batch is empty. -/
theorem ne_nil_of_mem_batches {g : ℕ} (hg : 0 < g) {l batch : List α} (h : batch ∈ batches g l) : batch ≠ [] := by
  induction hn : l.length using Nat.strong_induction_on generalizing l with
  | _ n ih =>
    by_cases hl : l = []
    · subst hl
      simp at h
    · have hlen : 0 < l.length := List.length_pos_iff.2 hl
      rw [batches_cons hg hl] at h
      rcases List.mem_cons.1 h with rfl | h
      · simp [hl]
        omega
      · exact ih (l.drop g).length (by rw [List.length_drop]; omega) h rfl

theorem map_batches {β : Type*} (f : α → β) (g : ℕ) (l : List α) :
    (batches g l).map (List.map f) = batches g (l.map f) := by
  unfold batches
  rw [List.map_map, List.length_map]
  exact List.map_congr_left fun j _ => by simp [List.map_take, List.map_drop]

section Pieces

variable {β : Type*} {f : α → List β} {w : ℕ}

theorem length_flatMap {l : List α} (hw : ∀ a ∈ l, (f a).length = w) : (l.flatMap f).length = l.length * w := by
  induction l with
  | nil => simp
  | cons a l ih =>
    rw [List.flatMap_cons, List.length_append, hw a List.mem_cons_self, ih fun x hx => hw x (List.mem_cons_of_mem _ hx),
      List.length_cons, Nat.succ_mul, Nat.add_comm]

/-- The first `k` pieces. -/
theorem take_flatMap {l : List α} (hw : ∀ a ∈ l, (f a).length = w) (k : ℕ) :
    (l.flatMap f).take (k * w) = (l.take k).flatMap f := by
  induction l generalizing k with
  | nil => simp
  | cons a l ih =>
    have ha := hw a List.mem_cons_self
    cases k with
    | zero => simp
    | succ k =>
      rw [List.flatMap_cons, List.take_succ_cons, List.flatMap_cons, Nat.succ_mul, Nat.add_comm, List.take_append,
        List.take_of_length_le (by omega), ha, Nat.add_sub_cancel_left, ih fun x hx => hw x (List.mem_cons_of_mem _ hx)]

/-- All but the first `k` pieces. -/
theorem drop_flatMap {l : List α} (hw : ∀ a ∈ l, (f a).length = w) (k : ℕ) :
    (l.flatMap f).drop (k * w) = (l.drop k).flatMap f := by
  induction l generalizing k with
  | nil => simp
  | cons a l ih =>
    have ha := hw a List.mem_cons_self
    cases k with
    | zero => simp
    | succ k =>
      rw [List.flatMap_cons, List.drop_succ_cons, Nat.succ_mul, Nat.add_comm, List.drop_append,
        List.drop_eq_nil_of_le (by omega), ha, Nat.add_sub_cancel_left, ih fun x hx => hw x (List.mem_cons_of_mem _ hx),
        List.nil_append]

/-- Piece `k`. -/
theorem piece_flatMap {l : List α} (hw : ∀ a ∈ l, (f a).length = w) {k : ℕ} {a : α} (hk : l[k]? = some a) :
    ((l.flatMap f).drop (k * w)).take w = f a := by
  obtain ⟨hlt, rfl⟩ := List.getElem?_eq_some_iff.1 hk
  rw [drop_flatMap hw, List.drop_eq_getElem_cons hlt, List.flatMap_cons]
  exact List.take_left' (hw _ (List.getElem_mem hlt))

end Pieces

/-- **The batches, spelled out**: `length / g` full ones, then the rest if there is one. -/
theorem batches_eq {g : ℕ} (hg : 0 < g) (l : List α) :
    batches g l = ((List.range (l.length / g)).map fun j => (l.drop (g * j)).take g) ++
      (if l.length % g = 0 then [] else [l.drop (g * (l.length / g))]) := by
  have hdm := Nat.div_add_mod l.length g
  have hmod := Nat.mod_lt l.length hg
  split
  · rename_i h0
    have hcount : (l.length + (g - 1)) / g = l.length / g := by
      rw [h0] at hdm
      exact Nat.div_eq_of_lt_le (by rw [Nat.mul_comm]; omega)
        (by rw [Nat.succ_mul, Nat.mul_comm]; omega)
    unfold batches
    rw [hcount, List.append_nil]
  · rename_i h0
    have hcount : (l.length + (g - 1)) / g = l.length / g + 1 :=
      Nat.div_eq_of_lt_le (by rw [Nat.succ_mul, Nat.mul_comm]; omega)
        (by rw [Nat.succ_mul, Nat.succ_mul, Nat.mul_comm]; omega)
    unfold batches
    rw [hcount, List.range_succ, List.map_append, List.map_singleton]
    rw [List.take_of_length_le (l := l.drop (g * (l.length / g)))]
    rw [List.length_drop]; omega

/-- **Grouping by a key** rearranges the list. -/
theorem flatMap_filter_perm {κ : Type*} [DecidableEq κ] (key : α → κ) {ks : List κ}
    (hks : ks.Nodup) : ∀ l : List α, (∀ a ∈ l, key a ∈ ks) →
      (ks.flatMap fun k => l.filter fun a => key a = k).Perm l := by
  induction ks with
  | nil =>
    intro l hl
    have hnil : l = [] := List.eq_nil_iff_forall_not_mem.2 fun a ha => by simpa using hl a ha
    rw [hnil]; rfl
  | cons k ks ih =>
    intro l hl
    obtain ⟨hk, hks⟩ := List.nodup_cons.1 hks
    have hrest : (ks.flatMap fun k' => l.filter fun a => key a = k') =
        ks.flatMap fun k' => (l.filter fun a => ¬ key a = k).filter fun a => key a = k' := by
      refine List.flatMap_congr fun k' hk' => ?_
      rw [List.filter_filter]
      refine List.filter_congr fun a _ => ?_
      by_cases ha : key a = k'
      · have : key a ≠ k := fun h => hk (h ▸ ha ▸ hk')
        simp [ha ▸ this, ha]
      · simp [ha]
    rw [List.flatMap_cons, hrest]
    refine ((ih hks _ fun a ha => ?_).append_left _).trans ?_
    · obtain ⟨ha, hne⟩ := List.mem_filter.1 ha
      exact (List.mem_cons.1 (hl a ha)).resolve_left (by simpa using hne)
    · simpa using List.filter_append_perm (fun a => decide (key a = k)) l

end Batching
