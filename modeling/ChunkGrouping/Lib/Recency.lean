import Mathlib.Tactic

/-!
# Histories of a least-recently-used map

What happens to a map with evictions is a list of events, newest first.

* `held`: the value last added under a key, if it was not evicted since.
* `byUse`: the keys, last used first; `contents`: what is held, in that order.
* `IsLru`: the events are those of a least-recently-used map: a lookup returns what is
  held, an eviction takes the last of `contents`.
* `contents_got`, `contents_added`, `contents_evicted`: what an event does to the
  contents.
-/

namespace Recency

/-- An event: a lookup and what it returned, an insertion, an eviction. -/
inductive Event (κ υ : Type*) where
  | got (key : κ) (res : Option υ)
  | added (key : κ) (val : υ)
  | evicted (key : κ)
deriving DecidableEq, Repr

variable {κ υ : Type*} [DecidableEq κ]

/-- The value last added under the key, if it was not evicted since. -/
def held (k : κ) : List (Event κ υ) → Option υ
  | [] => none
  | .got _ _ :: h => held k h
  | .added key val :: h => if key = k then some val else held k h
  | .evicted key :: h => if key = k then none else held k h

/-- The keys looked up or added, last used first, each once. -/
def byUse : List (Event κ υ) → List κ
  | [] => []
  | .got key _ :: h => key :: (byUse h).filter (· ≠ key)
  | .added key _ :: h => key :: (byUse h).filter (· ≠ key)
  | .evicted _ :: h => byUse h

/-- **What is held**, last used first. -/
def contents (h : List (Event κ υ)) : List (κ × υ) := (byUse h).filterMap fun k => (held k h).map (k, ·)

/-- **A history of a least-recently-used map**, whose caller adds only what is not there. -/
def IsLru : List (Event κ υ) → Prop
  | [] => True
  | .got key res :: h => res = held key h ∧ IsLru h
  | .added key _ :: h => held key h = none ∧ IsLru h
  | .evicted key :: h => ((contents h).getLast?.map Prod.fst = some key) ∧ IsLru h

variable {h : List (Event κ υ)}

theorem nodup_byUse (h : List (Event κ υ)) : (byUse h).Nodup := by
  induction h with
  | nil => exact .nil
  | cons e h ih =>
    cases e with
    | got key res => exact List.nodup_cons.2 ⟨by simp, ih.filter _⟩
    | added key val => exact List.nodup_cons.2 ⟨by simp, ih.filter _⟩
    | evicted key => exact ih

/-- What is held was used. -/
theorem mem_byUse {k : κ} {v : υ} (hk : held k h = some v) : k ∈ byUse h := by
  induction h with
  | nil => simp [held] at hk
  | cons e h ih =>
    cases e with
    | got key res =>
      by_cases hkey : k = key
      · simp [byUse, hkey]
      · simp [byUse, hkey, ih hk]
    | added key val =>
      by_cases hkey : key = k
      · simp [byUse, hkey]
      · rw [held, if_neg hkey] at hk
        simp [byUse, Ne.symm hkey, ih hk]
    | evicted key =>
      rw [held] at hk
      split at hk
      · cases hk
      · exact ih hk

theorem mem_contents {e : κ × υ} : e ∈ contents h ↔ held e.1 h = some e.2 := by
  unfold contents
  rw [List.mem_filterMap]
  constructor
  · rintro ⟨k, -, hk⟩
    obtain ⟨v, hv, rfl⟩ := Option.map_eq_some_iff.1 hk
    exact hv
  · intro he
    exact ⟨e.1, mem_byUse he, by rw [he]; rfl⟩

/-- Each key once. -/
theorem nodup_contents (h : List (Event κ υ)) : ((contents h).map Prod.fst).Nodup := by
  have : (contents h).map Prod.fst = (byUse h).filter fun k => (held k h).isSome := by
    unfold contents
    rw [List.map_filterMap, ← List.filterMap_eq_filter]
    refine List.filterMap_congr fun k _ => ?_
    cases hv : held k h <;> simp [hv, Option.guard]
  rw [this]
  exact (nodup_byUse h).filter _

/-- The keys but one, with what a history holds under them. -/
theorem filterMap_without (k : κ) (h' : List (Event κ υ)) (hk : ∀ x, x ≠ k → held x h' = held x h) :
    ((byUse h).filter (· ≠ k)).filterMap (fun x => (held x h').map (x, ·)) =
      (contents h).filter fun e => e.1 ≠ k := by
  unfold contents
  rw [List.filterMap_filter, List.filter_filterMap]
  refine List.filterMap_congr fun x _ => ?_
  by_cases hx : x = k
  · subst hx
    cases hv : held x h <;> simp [Option.filter]
  · rw [hk x hx]
    cases hv : held x h <;> simp [hx, Option.filter]

/-- A lookup moves what it finds to the front. -/
theorem contents_got (k : κ) (r : Option υ) :
    contents (.got k r :: h) = ((held k h).map (k, ·)).toList ++ (contents h).filter fun e => e.1 ≠ k := by
  have hrest := filterMap_without (h := h) k (.got k r :: h) fun _ _ => rfl
  unfold contents at hrest ⊢
  rw [byUse, List.filterMap_cons, hrest]
  simp only [held]
  cases held k h <;> rfl

/-- An insertion puts its entry in front. -/
theorem contents_added (k : κ) (v : υ) :
    contents (.added k v :: h) = (k, v) :: (contents h).filter fun e => e.1 ≠ k := by
  have hrest := filterMap_without (h := h) k (.added k v :: h)
    fun x hx => if_neg fun hkx => hx hkx.symm
  unfold contents at hrest ⊢
  rw [byUse, List.filterMap_cons, hrest]
  simp [held]

/-- An eviction takes its entry out. -/
theorem contents_evicted (k : κ) :
    contents (.evicted k :: h) = (contents h).filter fun e => e.1 ≠ k := by
  rw [← filterMap_without k (.evicted k :: h) fun x hx => if_neg fun hkx => hx hkx.symm,
    List.filterMap_filter]
  unfold contents
  refine List.filterMap_congr fun x _ => ?_
  by_cases hx : x = k
  · simp [held, hx]
  · simp [hx]

/-- In a list with distinct keys, taking out one key leaves the rest. -/
theorem filter_ne_middle {xs ys : List (κ × υ)} {k : κ} {v : υ}
    (hnd : ((xs ++ (k, v) :: ys).map Prod.fst).Nodup) :
    (xs ++ (k, v) :: ys).filter (fun e => e.1 ≠ k) = xs ++ ys := by
  rw [List.map_append, List.map_cons, List.nodup_middle, List.nodup_cons, ← List.map_append] at hnd
  have hne : ∀ e ∈ xs ++ ys, e.1 ≠ k := fun e he hk => hnd.1 (List.mem_map.2 ⟨e, he, hk⟩)
  rw [List.filter_append, List.filter_cons_of_neg (by simp), ← List.filter_append]
  exact List.filter_eq_self.2 fun e he => by simpa using hne e he

theorem filter_ne_self {k : κ} (hk : held k h = none) :
    (contents h).filter (fun e => e.1 ≠ k) = contents h := by
  refine List.filter_eq_self.2 fun e he => decide_eq_true fun hek => ?_
  rw [mem_contents, hek, hk] at he
  cases he

/-- A lookup keeps what is held. -/
theorem perm_contents_got (k : κ) (r : Option υ) : (contents (.got k r :: h)).Perm (contents h) := by
  rw [contents_got]
  cases hk : held k h with
  | none => rw [filter_ne_self hk, Option.map_none, Option.toList_none, List.nil_append]
  | some v =>
    obtain ⟨xs, ys, hsplit⟩ := List.append_of_mem (mem_contents (e := (k, v)).2 hk)
    have hnd := nodup_contents h
    rw [hsplit] at hnd ⊢
    rw [filter_ne_middle hnd, Option.map_some, Option.toList_some, List.singleton_append]
    exact List.perm_middle.symm

end Recency
