import Mathlib.Tactic

/-!
# Chopping a list into pieces

`Chop P l ps r`: pieces `ps` are cut off the front of `l` one after another, each
at a length that `P` allows for what is left, until `r` is left. A cutter of any
kind is a relation `P` between what is left and the length of the next piece.

* `Chop.flatten`: the pieces and what is left are the list (nothing is lost).
* `Chop.forall_of`: what `P` says of the first piece holds of every piece.
* `Chop.dropLast_of`: a property that only the piece that ends the list may fail
  holds of every piece but the last.
* `Chop.append`: a cutter that does not mind what comes behind cuts a longer list alike.
* `Chop.comparable`: two series of cuts by a functional cutter go the same way.
* `CutAt.agree`: two lists that are cut at one place of a common rest.
* `scan_cases`: a loop that tests one position after the other stops at the first that passes.
-/

namespace Cutting

variable {α : Type*}

/-- `ps` are pieces cut off the front of `l` at lengths allowed by `P`; `r` is left. -/
inductive Chop (P : List α → ℕ → Prop) : List α → List (List α) → List α → Prop
  | done (l : List α) : Chop P l [] l
  | cut {l : List α} {n : ℕ} {ps : List (List α)} {r : List α} (pos : 0 < n) (le : n ≤ l.length)
      (ok : P l n) (rest : Chop P (l.drop n) ps r) : Chop P l (l.take n :: ps) r

variable {P Q : List α → ℕ → Prop} {l r : List α} {ps : List (List α)}

/-- **Nothing is lost.** -/
theorem Chop.flatten (h : Chop P l ps r) : ps.flatten ++ r = l := by
  induction h with
  | done l => rfl
  | @cut l n ps r _ _ _ _ ih =>
    rw [List.flatten_cons, List.append_assoc, ih, List.take_append_drop]

theorem Chop.mono (hPQ : ∀ l n, P l n → Q l n) (h : Chop P l ps r) : Chop Q l ps r := by
  induction h with
  | done l => exact .done l
  | cut pos le ok _ ih => exact .cut pos le (hPQ _ _ ok) ih

/-- What holds of a first piece wherever `P` allows it holds of every piece. -/
theorem Chop.forall_of {S : List α → Prop}
    (hS : ∀ l n, 0 < n → n ≤ l.length → P l n → S (l.take n)) (h : Chop P l ps r) :
    ∀ p ∈ ps, S p := by
  induction h with
  | done l => simp
  | cut pos le ok _ ih =>
    intro p hp
    rcases List.mem_cons.1 hp with rfl | hp
    · exact hS _ _ pos le ok
    · exact ih p hp

/-- **The piece that ends the list.** The pieces before it end before the list does. -/
theorem Chop.last (h : Chop P l ps []) (hne : ps ≠ []) : ∃ qs q, ps = qs ++ [q] ∧
    Chop (fun l n => P l n ∧ n < l.length) l qs q ∧ 0 < q.length ∧ P q q.length := by
  generalize hr : ([] : List α) = r at h
  induction h with
  | done l => exact absurd rfl hne
  | @cut l n ps r pos le ok rest ih =>
    by_cases hps : ps = []
    · -- nothing is left behind the only piece
      subst hps hr
      have hall : l.drop n = [] := rest.flatten.symm
      have hn : n = l.length := Nat.le_antisymm le (List.drop_eq_nil_iff.1 hall)
      subst hn
      rw [List.take_length]
      exact ⟨[], l, rfl, .done l, pos, ok⟩
    · obtain ⟨qs, q, rfl, hqs, hpos, hq⟩ := ih hps hr
      -- another piece follows, so this one does not end the list
      have hlt : n < l.length := by
        have hlen := congrArg List.length rest.flatten
        rw [List.flatten_append, List.flatten_singleton, List.length_append, List.length_append,
          List.length_drop] at hlen
        omega
      exact ⟨l.take n :: qs, q, rfl, .cut pos le ⟨ok, hlt⟩ hqs, hpos, hq⟩

/-- **Every piece but the last.** If only a piece that ends the list may fail `S`,
and the pieces use the list up, then `S` holds of all but the last piece. -/
theorem Chop.dropLast_of {S : List α → Prop}
    (hS : ∀ l n, 0 < n → n < l.length → P l n → S (l.take n)) (h : Chop P l ps []) :
    ∀ p ∈ ps.dropLast, S p := by
  by_cases hne : ps = []
  · simp [hne]
  · obtain ⟨qs, q, rfl, hqs, -, -⟩ := h.last hne
    rw [List.dropLast_concat]
    exact hqs.forall_of fun l n hpos _ hn => hS l n hpos hn.2 hn.1

/-- The pieces are no more than the elements. -/
theorem Chop.length_le (h : Chop P l ps r) : ps.length + r.length ≤ l.length := by
  induction h with
  | done l => simp
  | cut pos le _ _ ih => rw [List.length_drop] at ih; simp only [List.length_cons]; omega

/-- A series of cuts, then one of what it left. -/
theorem Chop.trans (h : Chop P l ps r) {qs : List (List α)} {r' : List α} (h' : Chop P r qs r') :
    Chop P l (ps ++ qs) r' := by
  induction h with
  | done l => exact h'
  | cut pos le ok _ ih => exact .cut pos le ok (ih h')

/-- The first `n` pieces, then the others. -/
theorem Chop.split (h : Chop P l ps r) : ∀ n, ∃ m, Chop P l (ps.take n) m ∧ Chop P m (ps.drop n) r := by
  induction h with
  | done l => exact fun n => ⟨l, by simpa using Chop.done l, by simpa using Chop.done l⟩
  | @cut l n ps r pos le ok rest ih =>
    intro i
    cases i with
    | zero => exact ⟨l, .done l, .cut pos le ok rest⟩
    | succ i =>
      obtain ⟨m, hfirst, hothers⟩ := ih i
      exact ⟨m, .cut pos le ok hfirst, hothers⟩

/-- **More at the end**: the cuts stay, if the cutter allows each of them with `m` behind. -/
theorem Chop.append {m : List α} (hPQ : ∀ l n, n ≤ l.length → P l n → Q (l ++ m) n) (h : Chop P l ps r) :
    Chop Q (l ++ m) ps (r ++ m) := by
  induction h with
  | done l => exact .done _
  | @cut l n ps r pos le ok _ ih =>
    have hrest : (l ++ m).drop n = l.drop n ++ m := List.drop_append_of_le_length le
    rw [← hrest] at ih
    have hlen : n ≤ (l ++ m).length := le.trans (List.length_append ▸ Nat.le_add_right _ _)
    have hcut := Chop.cut pos hlen (hPQ l n le ok) ih
    rwa [List.take_append_of_le_length le] at hcut

/-- **Two series of cuts by a functional cutter**: one continues the other. -/
theorem Chop.comparable (hP : ∀ l n m, n ≤ l.length → m ≤ l.length → P l n → P l m → n = m)
    {qs : List (List α)} {r' : List α}
    (h : Chop P l ps r) (h' : Chop P l qs r') :
    (∃ ts, qs = ps ++ ts ∧ Chop P r ts r') ∨ (∃ ts, ps = qs ++ ts ∧ Chop P r' ts r) := by
  induction h generalizing qs r' with
  | done l => exact .inl ⟨qs, rfl, h'⟩
  | @cut l n ps r pos le ok rest ih =>
    cases h' with
    | done => exact .inr ⟨_, rfl, .cut pos le ok rest⟩
    | @cut _ m _ _ _ le' ok' rest' =>
      obtain rfl := hP _ _ _ le le' ok ok'
      rcases ih rest' with ⟨ts, rfl, ht⟩ | ⟨ts, rfl, ht⟩
      · exact .inl ⟨ts, rfl, ht⟩
      · exact .inr ⟨ts, rfl, ht⟩

/-- Nothing can be cut off the empty list. -/
theorem Chop.of_nil (h : Chop P [] ps r) : ps = [] ∧ r = [] := by
  cases h with
  | done => exact ⟨rfl, rfl⟩
  | cut pos le _ _ => simp at le; omega

/-- Cutting on to the end: a series of cuts starts the one that uses the list up. -/
theorem Chop.prefix_of (hP : ∀ l n m, n ≤ l.length → m ≤ l.length → P l n → P l m → n = m) (h : Chop P l ps r)
    {qs : List (List α)} (h' : Chop P l qs []) : ∃ ts, qs = ps ++ ts ∧ Chop P r ts [] := by
  rcases h.comparable hP h' with hgo | ⟨ts, rfl, hts⟩
  · exact hgo
  · obtain ⟨rfl, rfl⟩ := hts.of_nil
    exact ⟨[], by simp, .done []⟩

/-! ## Cut places -/

/-- The pieces of `l` are cut `n` elements from its start. -/
def CutAt (P : List α → ℕ → Prop) (l : List α) (n : ℕ) : Prop := ∃ ps r, Chop P l ps r ∧ ps.flatten.length = n

/-- Nothing more can be cut off. -/
def Final (P : List α → ℕ → Prop) (r : List α) : Prop := ∀ n, 0 < n → n ≤ r.length → ¬ P r n

theorem final_nil : Final P [] := fun _ hpos hle _ => absurd hle (by simpa using hpos.ne')

theorem Chop.of_final (h : Chop P l ps r) (hl : Final P l) : ps = [] ∧ r = l := by
  cases h with
  | done => exact ⟨rfl, rfl⟩
  | cut pos le ok _ => exact absurd ok (hl _ pos le)

/-- **A series of cuts that goes on until no more is possible** continues every other. -/
theorem Chop.prefix_of_final (hP : ∀ l n m, n ≤ l.length → m ≤ l.length → P l n → P l m → n = m)
    {qs : List (List α)} {r' : List α} (h : Chop P l qs r') (hl : Chop P l ps r) (hr : Final P r) :
    ∃ ts, ps = qs ++ ts ∧ Chop P r' ts r := by
  rcases h.comparable hP hl with hgo | ⟨ts, rfl, hts⟩
  · exact hgo
  · obtain ⟨rfl, rfl⟩ := hts.of_final hr
    exact ⟨[], by simp, .done r'⟩

variable {u v w : List α} {a p : ℕ}

theorem cutAt_of_take (h : Chop P (u ++ w) ps r) (i : ℕ) (hi : (ps.take i).flatten = u ++ w.take a) (ha : a ≤ w.length) :
    CutAt P (u ++ w) (u.length + a) := by
  obtain ⟨m, hchop, -⟩ := h.split i
  exact ⟨_, m, hchop, by rw [hi, List.length_append, List.length_take, Nat.min_eq_left ha]⟩

/-- **The next cut** behind one in the rest. -/
theorem CutAt.next (h : CutAt P (u ++ w) (u.length + a)) (ha : a < p) (hp : p ≤ w.length)
    (hcut : P (w.drop a) (p - a)) : CutAt P (u ++ w) (u.length + p) := by
  obtain ⟨ps, r, hchop, hlen⟩ := h
  have hr : r = w.drop a := by
    have hdrop := congrArg (List.drop (u.length + a)) hchop.flatten
    rwa [← hlen, List.drop_left, hlen, List.drop_length_add_append] at hdrop
  subst hr
  have hone := Chop.cut (by omega) (by rw [List.length_drop]; omega) hcut (.done _)
  refine ⟨_, _, hchop.trans hone, ?_⟩
  rw [List.flatten_append, List.length_append, hlen, List.flatten_singleton, List.length_take, List.length_drop]
  omega

/-- **A cut place in a series of cuts to the end**: what is behind it is cut like a list of its own. -/
theorem CutAt.chunks (hP : ∀ l n m, n ≤ l.length → m ≤ l.length → P l n → P l m → n = m) {n : ℕ} (h : CutAt P l n)
    (hl : Chop P l ps r) (hr : Final P r) :
    ∃ qs ts, ps = qs ++ ts ∧ qs.flatten = l.take n ∧ Chop P (l.drop n) ts r := by
  obtain ⟨qs, r', hchop, rfl⟩ := h
  have hflat := hchop.flatten
  have hqs : qs.flatten = l.take qs.flatten.length := by rw [← hflat, List.take_left]
  have hrest : l.drop qs.flatten.length = r' := by rw [← hflat, List.drop_left]
  obtain ⟨ts, hps, hts⟩ := hchop.prefix_of_final hP hl hr
  exact ⟨qs, ts, hps, hqs, hrest ▸ hts⟩

/-- **Two lists that are cut at one place of a common rest** have the same pieces from there on. -/
theorem CutAt.agree (hP : ∀ l n m, n ≤ l.length → m ≤ l.length → P l n → P l m → n = m) {px py : List (List α)}
    {r' : List α} (h : CutAt P (u ++ w) (u.length + p)) (h' : CutAt P (v ++ w) (v.length + p))
    (hx : Chop P (u ++ w) px r) (hr : Final P r) (hy : Chop P (v ++ w) py r') (hr' : Final P r') :
    ∃ qx qy ts, px = qx ++ ts ∧ py = qy ++ ts ∧ qx.flatten = u ++ w.take p ∧ qy.flatten = v ++ w.take p := by
  obtain ⟨qx, ts, rfl, hqx, hts⟩ := h.chunks hP hx hr
  obtain ⟨qy, ts', rfl, hqy, hts'⟩ := h'.chunks hP hy hr'
  rw [List.drop_length_add_append] at hts hts'
  rw [List.take_length_add_append] at hqx hqy
  refine ⟨qx, qy, ts, rfl, ?_, hqx, hqy⟩
  rcases hts.comparable hP hts' with ⟨us, rfl, hus⟩ | ⟨us, rfl, hus⟩
  · rw [(hus.of_final hr).1, List.append_nil]
  · rw [(hus.of_final hr').1, List.append_nil]

/-! ## Scanning for a cut -/

/-- **A scan** of `k` positions behind `n`, of which none is beyond `len`: it finds the first at which `stop`
holds, or comes to its end. -/
theorem scan_cases {γ : Type*} {stop : ℕ → Prop} [DecidablePred stop] {scan : ℕ → ℕ → γ} {found ended : ℕ → γ}
    {len : ℕ} (zero : ∀ n, scan 0 n = ended n) (succ : ∀ k n, n < len →
      scan (k + 1) n = if stop (n + 1) then found (n + 1) else scan k (n + 1)) :
    ∀ k n, n + k ≤ len →
      (∃ m, n < m ∧ m ≤ n + k ∧ stop m ∧ (∀ i, n < i → i < m → ¬ stop i) ∧ scan k n = found m) ∨
      ((∀ i, n < i → i ≤ n + k → ¬ stop i) ∧ scan k n = ended (n + k)) := by
  intro k
  induction k with
  | zero => exact fun n _ => .inr ⟨fun i h1 h2 => by omega, zero n⟩
  | succ k ih =>
    intro n h
    rw [succ k n (by omega)]
    by_cases hs : stop (n + 1)
    · rw [if_pos hs]
      exact .inl ⟨n + 1, by omega, by omega, hs, fun i h1 h2 => by omega, rfl⟩
    · rw [if_neg hs]
      -- the first stop behind `n + 1` is the first behind `n`
      have hskip : ∀ {i}, n < i → (n + 1 < i → ¬ stop i) → ¬ stop i := by
        intro i hi hlater
        rcases Nat.eq_or_lt_of_le (Nat.succ_le_of_lt hi) with rfl | hlt
        · exact hs
        · exact hlater hlt
      rcases ih (n + 1) (by omega) with ⟨m, h1, h2, h3, h4, h5⟩ | ⟨h1, h2⟩
      · exact .inl ⟨m, by omega, by omega, h3, fun i hi him => hskip hi fun hlt => h4 i hlt him, h5⟩
      · refine .inr ⟨fun i hi hik => hskip hi fun hlt => h1 i hlt (by omega), ?_⟩
        rw [h2, Nat.add_right_comm, Nat.add_assoc]

end Cutting
