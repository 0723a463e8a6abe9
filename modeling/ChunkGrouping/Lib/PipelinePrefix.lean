import ChunkGrouping.Lib.Pipeline

/-!
# What has come so far

When worker 0 can make all its items and the others can work on all of them, no schedule makes
a worker fail: what a worker has taken and made at any time are the first of the items that it
takes and makes in the end.

* `Drains.next`: worker 0 goes on with the next of its items.
* `stages_of_passAll`: item by item is stage by stage, the other direction of
  `passAll_of_stages`.
* `Inv.made_prefix`: what has been made; `Inv.produces` and `Inv.works`: no worker fails.
* `Inv.last_passed`: where the last worker is, passing on the items it has worked on leads to.
-/

namespace BoundedPipeline

variable {σ : ℕ → Type} {α : Type} {P : Program σ α} {l : ∀ w, σ w} {s : State σ α}

/-! ## Worker 0 -/

section Maker

variable {x m n : σ 0} {as bs : List α} {a : α}

theorem Makes.of_concat (h : Makes P x (as ++ [a]) n) : ∃ m, Makes P x as m ∧ P.produce m = some (some a, n) := by
  generalize hbs : as ++ [a] = bs at h
  cases h with
  | nil => simp at hbs
  | concat hm hp =>
    obtain ⟨rfl, hlast⟩ := List.append_inj' hbs rfl
    obtain rfl := (List.cons.inj hlast).1
    exact ⟨_, hm, hp⟩

/-- **What has been made says where worker 0 is.** -/
theorem Makes.unique (h : Makes P x as m) : ∀ {n : σ 0}, Makes P x as n → m = n := by
  induction h with
  | nil =>
    intro n h'
    generalize hbs : ([] : List α) = bs at h'
    cases h' with
    | nil => rfl
    | concat => simp at hbs
  | concat _ hp ih =>
    intro n h'
    obtain ⟨m', hm', hp'⟩ := h'.of_concat
    rw [← ih hm', hp] at hp'
    exact (Prod.mk.inj (Option.some.inj hp')).2

/-- What is made first, and what after it. -/
theorem Makes.split (h : Makes P x (as ++ bs) n) : ∃ m, Makes P x as m ∧ Makes P m bs n := by
  induction bs using List.reverseRecOn generalizing n with
  | nil => exact ⟨n, by simpa using h, .nil n⟩
  | append_singleton bs b ih =>
    rw [← List.append_assoc] at h
    obtain ⟨k, hk, hp⟩ := h.of_concat
    obtain ⟨m, hm, hbs⟩ := ih hk
    exact ⟨m, hm, hbs.concat hp⟩

/-- **Worker 0 goes on** with the next of its items, or has made them all. -/
theorem Drains.next (hd : Drains P x (as ++ bs) n) (h : Makes P x as m) :
    (bs = [] ∧ P.produce m = some (none, n)) ∨ ∃ b cs m', bs = b :: cs ∧ P.produce m = some (some b, m') := by
  obtain ⟨k, hk, hnone⟩ := hd
  obtain ⟨m₁, hm₁, hbs⟩ := hk.split
  obtain rfl := h.unique hm₁
  cases bs with
  | nil =>
    obtain rfl := hbs.unique (.nil m)
    exact .inl ⟨rfl, hnone⟩
  | cons b cs =>
    have hsplit : Makes P m ([b] ++ cs) k := hbs
    obtain ⟨m', hb, -⟩ := hsplit.split
    have hlast : Makes P m ([] ++ [b]) m' := hb
    obtain ⟨m₀, hnil, hp⟩ := hlast.of_concat
    obtain rfl := hnil.unique (.nil m)
    exact .inr ⟨b, cs, m', rfl, hp⟩

/-- **What has been made** are the first of the items. -/
theorem Drains.made_prefix (hd : Drains P x bs n) (h : Makes P x as m) : as <+: bs := by
  induction h with
  | nil => exact List.nil_prefix
  | @concat m m' as a hm hp ih =>
    obtain ⟨cs, rfl⟩ := ih
    rcases hd.next hm with ⟨-, hnone⟩ | ⟨b, cs', m₁, rfl, hb⟩
    · rw [hp] at hnone
      cases hnone
    · obtain ⟨hab, -⟩ := Prod.mk.inj (Option.some.inj (hp.symm.trans hb))
      obtain rfl := Option.some.inj hab
      exact ⟨cs', by simp⟩

end Maker

/-! ## The other workers -/

section Stage

variable {τ : Type} {f : τ → α → Option (α × τ)} {t t' u u' : τ} {as bs xs ys : List α}

/-- Some items first, then the others. -/
theorem runStage_append (h : runStage f t (as ++ bs) = some (ys, t')) :
    ∃ ys₁ u ys₂, runStage f t as = some (ys₁, u) ∧ runStage f u bs = some (ys₂, t') ∧ ys = ys₁ ++ ys₂ := by
  induction as generalizing t ys with
  | nil => exact ⟨[], t, ys, rfl, h, rfl⟩
  | cons a as ih =>
    obtain ⟨y, t₁, ys', ha, hrest, rfl⟩ := runStage_cons h
    obtain ⟨ys₁, u, ys₂, h₁, h₂, rfl⟩ := ih hrest
    exact ⟨y :: ys₁, u, ys₂, by simp [runStage, ha, h₁], h₂, rfl⟩

/-- **Of the first items it makes the first.** -/
theorem runStage_prefix (hpre : as <+: bs) (h : runStage f t as = some (xs, u)) (h' : runStage f t bs = some (ys, u')) :
    xs <+: ys := by
  obtain ⟨cs, rfl⟩ := hpre
  obtain ⟨ys₁, _, ys₂, h₁, -, rfl⟩ := runStage_append h'
  obtain ⟨rfl, -⟩ := Prod.mk.inj (Option.some.inj (h.symm.trans h₁))
  exact ⟨ys₂, rfl⟩

/-- It makes one of each. -/
theorem length_runStage : ∀ {t : τ} {as ys : List α}, runStage f t as = some (ys, t') → ys.length = as.length := by
  intro t as
  induction as generalizing t with
  | nil =>
    intro ys h
    obtain ⟨rfl, -⟩ := Prod.mk.inj (Option.some.inj h)
    rfl
  | cons a as ih =>
    intro ys h
    obtain ⟨y, t₁, ys', -, hrest, rfl⟩ := runStage_cons h
    rw [List.length_cons, List.length_cons, ih hrest]

/-- Of the first `n` the first `n`. -/
theorem runStage_take (h : runStage f t as = some (ys, t')) (n : ℕ) :
    ∃ u, runStage f t (as.take n) = some (ys.take n, u) := by
  rw [← List.take_append_drop n as] at h
  obtain ⟨ys₁, u, ys₂, h₁, h₂, rfl⟩ := runStage_append h
  have hl₁ := length_runStage h₁
  have hl₂ := length_runStage h₂
  rw [List.length_take] at hl₁
  rw [List.length_drop] at hl₂
  refine ⟨u, ?_⟩
  rcases Nat.le_total n as.length with hn | hn
  · rw [h₁, List.take_left' (by omega)]
  · obtain rfl := List.length_eq_zero_iff.1 (show ys₂.length = 0 by omega)
    rw [h₁, List.append_nil, List.take_of_length_le (by omega)]

/-- What comes next it can work on. -/
theorem runStage_next {a : α} (hpre : as ++ [a] <+: bs) (h : runStage f t as = some (xs, u))
    (h' : runStage f t bs = some (ys, u')) : ∃ r, f u a = some r := by
  obtain ⟨cs, rfl⟩ := hpre
  rw [List.append_assoc] at h'
  obtain ⟨_, _, _, h₁, h₂, -⟩ := runStage_append h'
  obtain ⟨-, rfl⟩ := Prod.mk.inj (Option.some.inj (h.symm.trans h₁))
  obtain ⟨b, t₁, _, hb, -⟩ := runStage_cons h₂
  exact ⟨(b, t₁), hb⟩

end Stage

/-- What each worker makes of an item. -/
theorem works_of_pass {a : α} : ∀ {k : ℕ} {c : α} {l' : ∀ w, σ w}, pass P k a l = some (c, l') →
    ∃ b : ℕ → α, b 0 = a ∧ b k = c ∧
      (∀ w, w < k → P.work (w + 1) (l (w + 1)) (b w) = some (b (w + 1), l' (w + 1))) ∧ ∀ w, k < w → l' w = l w := by
  intro k
  induction k with
  | zero =>
    intro c l' h
    obtain ⟨rfl, rfl⟩ := Prod.mk.inj (Option.some.inj h)
    exact ⟨fun _ => a, rfl, rfl, fun w hw => by omega, fun _ _ => rfl⟩
  | succ k ih =>
    intro c l' h
    simp only [pass, Option.bind_eq_bind, Option.bind_eq_some_iff, Option.some.injEq, Prod.mk.injEq] at h
    obtain ⟨⟨b', l₁⟩, hp, ⟨c', t⟩, hw, rfl, rfl⟩ := h
    obtain ⟨b, h0, rfl, hb, hl⟩ := ih hp
    dsimp only at hw
    rw [hl (k + 1) (by omega)] at hw
    refine ⟨Function.update b (k + 1) c', ?_, Function.update_self .., fun w hwk => ?_, fun w hkw => ?_⟩
    · rw [Function.update_of_ne (by omega), h0]
    · rw [Function.update_of_ne (a := w) (by omega)]
      by_cases hwk' : w = k
      · subst hwk'
        rw [Function.update_self, Function.update_self]
        exact hw
      · rw [Function.update_of_ne (by omega), Function.update_of_ne (by omega)]
        exact hb w (by omega)
    · rw [Function.update_of_ne (by omega)]
      exact hl w (by omega)

/-- **Item by item is stage by stage.** -/
theorem stages_of_passAll {l' : ∀ w, σ w} {as : List α} (h : passAll P as l = some l') :
    ∃ made : ℕ → List α, made 0 = as ∧ ∀ w, w < P.last →
      runStage (P.work (w + 1)) (l (w + 1)) (made w) = some (made (w + 1), l' (w + 1)) := by
  induction as generalizing l with
  | nil =>
    obtain rfl := Option.some.inj h
    exact ⟨fun _ => [], rfl, fun _ _ => rfl⟩
  | cons a as ih =>
    unfold passAll at h ih
    rw [List.foldlM_cons, Option.bind_eq_bind, Option.bind_eq_some_iff] at h
    obtain ⟨l₁, ha, has⟩ := h
    obtain ⟨⟨c, _⟩, hp, rfl⟩ := Option.map_eq_some_iff.1 ha
    obtain ⟨b, h0, -, hb, -⟩ := works_of_pass hp
    obtain ⟨made, rfl, hmade⟩ := ih has
    refine ⟨fun w => b w :: made w, congrArg (· :: made 0) h0, fun w hw => ?_⟩
    simp [runStage, hb w hw, hmade w hw]

/-! ## Any schedule -/

/-- **Worker 0 drains and the others can work on everything**: `made w` is what worker `w` makes. -/
structure Succeeds (P : Program σ α) (l : ∀ w, σ w) (made : ℕ → List α) : Prop where
  drains : ∃ m, Drains P (l 0) (made 0) m
  stage : ∀ w, w < P.last → ∃ t, runStage (P.work (w + 1)) (l (w + 1)) (made w) = some (made (w + 1), t)

theorem succeeds_of_passAll {as : List α} {m : σ 0} {l' : ∀ w, σ w} (hd : Drains P (l 0) as m)
    (hp : passAll P as l = some l') : ∃ made, Succeeds P l made := by
  obtain ⟨made, rfl, hmade⟩ := stages_of_passAll hp
  exact ⟨made, ⟨m, hd⟩, fun w hw => ⟨_, hmade w hw⟩⟩

variable {ins outs made : ℕ → List α} {a : α}

/-- **What a worker has made** are the first of what it makes in the end. -/
theorem Inv.made_prefix (h : Inv P l s ins outs) (hs : Succeeds P l made) : ∀ w, w ≤ P.last → outs w <+: made w := by
  intro w
  induction w with
  | zero =>
    intro _
    obtain ⟨m, hd⟩ := hs.drains
    rcases h.source with ⟨-, hmade⟩ | ⟨-, n, hmade, -⟩
    · exact hd.made_prefix hmade
    · exact hd.made_prefix hmade
  | succ w ih =>
    intro hw
    obtain ⟨t, ht⟩ := hs.stage w hw
    have htaken : ins (w + 1) <+: outs w := ⟨_, (h.link w hw).symm⟩
    exact runStage_prefix (htaken.trans (ih (by omega))) (h.stage w hw) ht

/-- **Worker 0 does not fail.** -/
theorem Inv.produces (h : Inv P l s ins outs) (hs : Succeeds P l made) (hp : s.phase 0 = .fetch) :
    ∃ r, P.produce (s.loc 0) = some r := by
  obtain ⟨m, hd⟩ := hs.drains
  obtain ⟨bs, hbs⟩ := h.made_prefix hs 0 (Nat.zero_le _)
  rw [← hbs] at hd
  rcases hd.next (h.makes hp Phase.not_closed_fetch) with ⟨-, hm⟩ | ⟨b, -, m', -, hm⟩
  · exact ⟨_, hm⟩
  · exact ⟨_, hm⟩

/-- **Nor does another one**, on what it has taken. -/
theorem Inv.works (h : Inv P l s ins outs) (hs : Succeeds P l made) {w : ℕ} (hp : s.phase w = .work a) :
    ∃ r, P.work w (s.loc w) a = some r := by
  cases w with
  | zero => exact absurd hp (h.maker a)
  | succ w =>
    have hle : w < P.last := h.le_last (by simp [hp])
    obtain ⟨t, ht⟩ := hs.stage w hle
    have hlink := h.link w hle
    rw [hp, Phase.taken_work, List.singleton_append] at hlink
    have htaken : ins (w + 1) ++ [a] <+: outs w := ⟨s.queue w ++ (s.phase w).held, by rw [hlink]; simp⟩
    exact runStage_next (htaken.trans (h.made_prefix hs w (by omega))) (h.stage w hle) ht

/-- **Where the last worker is** the first items lead to, passed on one after the other: as many of them as it has
worked on. -/
theorem Inv.last_passed (h : Inv P l s ins outs) {last : ℕ} (hlast : P.last = last + 1) :
    ∃ l', passAll P ((outs 0).take (ins (last + 1)).length) l = some l' ∧ l' (last + 1) = s.loc (last + 1) := by
  set n := (ins (last + 1)).length with hn
  have htaken : ∀ w, w < P.last → ins (w + 1) <+: outs w := fun w hw => ⟨_, (h.link w hw).symm⟩
  have hlen : ∀ w, w < P.last → (outs (w + 1)).length = (ins (w + 1)).length := fun w hw => length_runStage (h.stage w hw)
  -- each worker has taken at least as many as the one behind it
  have hle : ∀ k, k ≤ last → n ≤ (ins (last - k + 1)).length := by
    intro k
    induction k with
    | zero => intro _; exact le_rfl
    | succ k ih =>
      intro hk
      refine (ih (by omega)).trans ?_
      rw [← hlen (last - (k + 1)) (by omega), show last - (k + 1) + 1 = last - k by omega]
      exact (htaken (last - k) (by omega)).length_le
  have hstage : ∀ w, ∃ u, w < P.last →
      runStage (P.work (w + 1)) (l (w + 1)) ((outs w).take n) = some ((outs (w + 1)).take n, u) ∧
        (w = last → u = s.loc (w + 1)) := fun w => by
    by_cases hw : w < P.last
    · obtain ⟨us, hus⟩ := htaken w hw
      have hnle : n ≤ (ins (w + 1)).length := by
        have := hle (last - w) (by omega)
        rwa [show last - (last - w) = w by omega] at this
      obtain ⟨u, hu⟩ := runStage_take (h.stage w hw) n
      have hmore : (ins (w + 1) ++ us).take n = (ins (w + 1)).take n := List.take_append_of_le_length hnle
      rw [← hmore, hus] at hu
      refine ⟨u, fun _ => ⟨hu, ?_⟩⟩
      rintro rfl
      have hall := h.stage w hw
      have hself : (ins (w + 1)).take n = ins (w + 1) := by rw [hn, List.take_length]
      rw [← hself, ← hmore, hus, hu] at hall
      exact (Prod.mk.inj (Option.some.inj hall)).2
    · exact ⟨l (w + 1), fun hlt => absurd hlt hw⟩
  choose u hu using hstage
  let l' (w : ℕ) : σ w := Nat.casesOn (motive := σ) w (l 0) u
  obtain ⟨l'', hp, hl''⟩ := @passAll_of_stages _ _ P (fun w => (outs (w - 1)).take n) (fun w => (outs w).take n) l l'
    (fun _ _ => rfl) fun w hw => (hu w hw).1
  refine ⟨l'', hp, ?_⟩
  rw [hl'' last (by omega)]
  exact (hu last (by omega)).2 rfl

end BoundedPipeline
