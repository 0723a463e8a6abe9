import ChunkGrouping.Model.FastCDC
import ChunkGrouping.Model.FeatureCalculators
import ChunkGrouping.Proof.PipelineLinks

/-!
# When the workers do not get stuck

A worker's step changes the queue before it or the one behind it and leaves all others as
they are, so that all queues stay as they should be (`LocksOK`), unless a `notify_all` of
`task_done` comes while the next worker is between a test that failed and blocking. Where
none does, nobody is blocked for nothing and no state is stuck; where one does, the next
worker blocks and nobody notifies again.

* `LocksOK`: all queues; `locksOK_step` for a step of a worker.
* `LocksOK.not_stuck`: who is blocked waits for a worker that can step.
* `pipeline_not_stuck`: any run in which each notification is heard; `pipeline_unheard` for
  one that is not.
-/

namespace ChunkGrouping

open BoundedPipeline PipelineRun

variable {σ : ℕ → Type} {α : Type} {P : Program σ α} {s s' : LockedState σ α} {v w x : ℕ}

/-! ## All queues -/

/-- Where worker `w` can be. -/
def Pc.Fits (last w : ℕ) : Pc α → Prop
  | produce => w = 0
  | queue (.get _) _ => 0 < w ∧ w ≤ last
  | queue (.write _) _ => w < last
  | work _ => 0 < w ∧ w ≤ last
  | setDone | notifyDone => w < last
  | returned => True
  | crashed => w ≤ last

/-- **All queues are as they should be.** -/
structure LocksOK (P : Program σ α) (s : LockedState σ α) : Prop where
  fits : ∀ w, (s.pc w).Fits P.last w
  link : ∀ v < P.last, LinkOK P.cap v (s.pc v) (s.pc (v + 1)) (s.queue v) (s.done v) (s.owner v)

/-- **A worker's step, from its two queues.** -/
theorem LocksOK.of_links (h : LocksOK P s) (hpc : ∀ u, u ≠ w → s'.pc u = s.pc u)
    (hsame : ∀ v, v ≠ w → v + 1 ≠ w → s'.queue v = s.queue v ∧ s'.done v = s.done v ∧ s'.owner v = s.owner v)
    (hfits : (s'.pc w).Fits P.last w)
    (hwrite : w < P.last → LinkOK P.cap w (s'.pc w) (s.pc (w + 1)) (s'.queue w) (s'.done w) (s'.owner w))
    (hread : ∀ v, v < P.last → v + 1 = w →
      LinkOK P.cap v (s.pc v) (s'.pc w) (s'.queue v) (s'.done v) (s'.owner v)) : LocksOK P s' := by
  refine ⟨fun u => ?_, fun v hv => ?_⟩
  · by_cases hu : u = w
    · rw [hu]; exact hfits
    · rw [hpc u hu]; exact h.fits u
  · by_cases hw : v = w
    · subst hw
      rw [hpc (v + 1) (by omega)]
      exact hwrite hv
    by_cases hr : v + 1 = w
    · rw [hpc v hw, hr]
      exact hread v hv hr
    · obtain ⟨hq, hd, ho⟩ := hsame v hw hr
      rw [hpc v hw, hpc (v + 1) hr, hq, hd, ho]
      exact h.link v hv

/-- **A step of a writer.** What it reads from does not see it. -/
theorem LocksOK.write_step (h : LocksOK P s) (hp : (s.pc w).readAt = none) (hpc : ∀ u, u ≠ w → s'.pc u = s.pc u)
    (hsame : ∀ v, v ≠ w → s'.queue v = s.queue v ∧ s'.done v = s.done v ∧ s'.owner v = s.owner v)
    (hfits : (s'.pc w).Fits P.last w) (hp' : (s'.pc w).readAt = none ∨ (s'.pc w).readAt = some .lock)
    (hclosed : (s'.pc w).closed = true → w = 0 ∨ (s.pc w).closed = true)
    (hlink : w < P.last → LinkOK P.cap w (s'.pc w) (s.pc (w + 1)) (s'.queue w) (s'.done w) (s'.owner w)) :
    LocksOK P s' := by
  refine h.of_links hpc (fun v hv _ => hsame v hv) hfits hlink fun v hv hvw => ?_
  subst hvw
  obtain ⟨hq, hd, ho⟩ := hsame v (by omega)
  rw [hq, hd, ho]
  exact (h.link v hv).reader_away hp hp' fun hc => (hclosed hc).resolve_left (by omega)

/-- **A step of a reader.** What it writes to does not see it. -/
theorem LocksOK.read_step (h : LocksOK P s) {m : Option α} {point : Point}
    (hp : s.pc (v + 1) = .queue (.get m) point) (hpc : ∀ u, u ≠ v + 1 → s'.pc u = s.pc u)
    (hsame : ∀ u, u ≠ v → s'.queue u = s.queue u ∧ s'.done u = s.done u ∧ s'.owner u = s.owner u)
    (hfits : (s'.pc (v + 1)).Fits P.last (v + 1)) (hp' : (s'.pc (v + 1)).writeAt = none)
    (hn : s'.pc (v + 1) ≠ .notifyDone) (hr : v + 1 < P.last → s'.pc (v + 1) ≠ .returned)
    (hlink : LinkOK P.cap v (s.pc v) (s'.pc (v + 1)) (s'.queue v) (s'.done v) (s'.owner v)) : LocksOK P s' := by
  refine h.of_links hpc (fun u _ hu => hsame u (by omega)) hfits (fun hlt => ?_) fun u _ hu => ?_
  · obtain ⟨hq, hd, ho⟩ := hsame (v + 1) (by omega)
    rw [hq, hd, ho]
    exact (h.link (v + 1) hlt).writer_away (by rw [hp]; rfl) (by rw [hp]; simp) (by rw [hp]; simp) (.inl hp') hn
      (hr hlt)
  · obtain rfl : u = v := by omega
    exact hlink

/-! ### Notifications -/

/-- Who is blocked there is woken. -/
theorem pc_notifyAll (x u : ℕ) (s : LockedState σ α) :
    (∃ m, m.queueOf u = x ∧ s.pc u = .queue m .blocked ∧ (s.notifyAll x).pc u = .queue m .wake) ∨
      ((∀ m, m.queueOf u = x → s.pc u ≠ .queue m .blocked) ∧ (s.notifyAll x).pc u = s.pc u) := by
  simp only [LockedState.notifyAll]
  split
  · rename_i m hm
    by_cases hx : m.queueOf u = x
    · exact .inl ⟨m, hx, hm, if_pos hx⟩
    · refine .inr ⟨fun m' hm' he => ?_, by rw [if_neg hx, hm]⟩
      obtain ⟨rfl, -⟩ := Pc.queue.inj (hm.symm.trans he)
      exact hx hm'
  · rename_i hne
    exact .inr ⟨fun m _ => hne m, rfl⟩

/-- Nobody is blocked there afterwards. -/
theorem notifyAll_ne_blocked (u : ℕ) (m : QueueMacro α) : (s.notifyAll (m.queueOf u)).pc u ≠ .queue m .blocked := by
  intro he
  rcases pc_notifyAll (m.queueOf u) u s with ⟨m', -, -, hw⟩ | ⟨hne, hs⟩
  · rw [hw] at he
    cases he
  · exact hne m rfl (hs.symm.trans he)

/-- A worker that is not blocked is where it was. -/
theorem pc_notifyAll_of_ne (h : ∀ m, s.pc w ≠ .queue m .blocked) : (s.notifyAll x).pc w = s.pc w := by
  rcases pc_notifyAll x w s with ⟨m, -, hm, -⟩ | ⟨-, hs⟩
  · exact absurd hm (h m)
  · exact hs

/-- **To be woken does no harm.** -/
theorem LocksOK.notifyAll (h : LocksOK P s) (x : ℕ) : LocksOK P (s.notifyAll x) := by
  refine ⟨fun w => ?_, fun v hv => ?_⟩
  · rcases pc_notifyAll x w s with ⟨m, -, hm, hw⟩ | ⟨-, hw⟩
    · have hfit := h.fits w
      rw [hm] at hfit
      rw [hw]
      cases m <;> exact hfit
    · rw [hw]
      exact h.fits w
  · have hl := h.link v hv
    have hwriter : LinkOK P.cap v ((s.notifyAll x).pc v) (s.pc (v + 1)) (s.queue v) (s.done v) (s.owner v) := by
      rcases pc_notifyAll x v s with ⟨m, -, hm, hw⟩ | ⟨-, hw⟩
      · rw [hw]
        rw [hm] at hl
        exact hl.wake_writer
      · rw [hw]
        exact hl
    rcases pc_notifyAll x (v + 1) s with ⟨m, -, hm, hw⟩ | ⟨-, hw⟩
    · rw [hw]
      rw [hm] at hwriter
      exact hwriter.wake_reader
    · rw [hw]
      exact hwriter

/-- A reader is not blocked behind a notification of its queue. -/
theorem readAt_notifyAll (v : ℕ) : ((s.notifyAll v).pc (v + 1)).readAt ≠ some .blocked := by
  intro hb
  obtain ⟨z, hz⟩ := Pc.readAt_eq_some hb
  exact notifyAll_ne_blocked (v + 1) (.get z) hz

theorem writeAt_notifyAll (v : ℕ) : ((s.notifyAll v).pc v).writeAt ≠ some .blocked := by
  intro hb
  obtain ⟨a, ha⟩ := Pc.writeAt_eq_some hb
  exact notifyAll_ne_blocked v (.write a) ha

/-! ### A step of a worker -/

section

variable {ready : Bool} {a : α} {z : Option α} {point : Point} {p : Pc α} {q q' : List α} {o o' : Option ℕ}

theorem MacroStep.write_pc (h : MacroStep P w ready (.write a) point q o p q' o') (hw : w < P.last) :
    p.Fits P.last w ∧ (p.readAt = none ∨ p.readAt = some .lock) ∧ p.closed = false := by
  cases h with
  | lock | pass | fail | sleep | put => exact ⟨hw, .inl rfl, rfl⟩
  | unlock =>
    unfold LockedState.after
    dsimp only
    split
    · rename_i hw0
      exact ⟨hw0, .inl rfl, rfl⟩
    · exact ⟨⟨by omega, hw.le⟩, .inr rfl, rfl⟩

theorem MacroStep.read_pc (h : MacroStep P w ready (.get z) point q o p q' o') (h0 : 0 < w) (hw : w ≤ P.last) :
    p.Fits P.last w ∧ p.writeAt = none ∧ p ≠ .notifyDone ∧ (w < P.last → p ≠ .returned) := by
  cases h with
  | lock | pass | fail | sleep | take | empty => exact ⟨⟨h0, hw⟩, rfl, by simp, by simp⟩
  | unlock =>
    cases z with
    | some a => exact ⟨⟨h0, hw⟩, rfl, by simp [LockedState.after], by simp [LockedState.after]⟩
    | none =>
      unfold LockedState.after
      dsimp only
      split
      · exact ⟨trivial, rfl, by simp, fun hlt => by omega⟩
      · exact ⟨show w < P.last by omega, rfl, by simp, by simp⟩

end

/-- What a step in a macro leaves as it is. -/
theorem moved_same (x : ℕ) (q : List α) (o : Option ℕ) (p : Pc α) (s : LockedState σ α) {u : ℕ} (hu : u ≠ x) :
    (((s.setQueue x q).setOwner x o).goto w p).queue u = s.queue u ∧
      (((s.setQueue x q).setOwner x o).goto w p).done u = s.done u ∧
      (((s.setQueue x q).setOwner x o).goto w p).owner u = s.owner u := by
  simp [hu]

/-- **A step in `write_to_queue`.** -/
theorem LocksOK.write_macro (h : LocksOK P s) {a : α} {point : Point} (hp : s.pc w = .queue (.write a) point)
    (hs : s.stepMacro P w (.write a) point = some s') : LocksOK P s' := by
  have hw : w < P.last := by
    have hfit := h.fits w
    rwa [hp] at hfit
  rcases stepMacro_cases hs with ⟨rfl, rfl⟩ | ⟨p, q, o, hm, rfl⟩
  · -- the reader is woken first
    have hkeep : (s.notifyAll w).pc w = .queue (.write a) .notify := by
      rw [pc_notifyAll_of_ne (by simp [hp]), hp]
    have hl := (h.notifyAll w).link w hw
    rw [hkeep] at hl
    refine (h.notifyAll w).write_step (w := w) (by rw [hkeep]; rfl) (fun u hu => LockedState.goto_pc_of_ne hu ..)
      (fun v hv => ⟨rfl, rfl, rfl⟩) ?_ ?_ ?_ fun _ => ?_ <;>
      simp only [QueueMacro.queueOf_write, LockedState.goto_pc_self]
    · exact hw
    · exact .inl rfl
    · exact fun hc => nomatch hc
    · exact hl.write_notify (readAt_notifyAll w)
  · obtain ⟨hfit, hread, hclosed⟩ := hm.write_pc hw
    have hl := h.link w hw
    rw [hp] at hl
    refine h.write_step (w := w) (by rw [hp]; rfl) (fun u hu => LockedState.goto_pc_of_ne hu ..)
      (fun v hv => moved_same w q o p s hv) ?_ ?_ ?_ fun _ => ?_ <;>
      simp only [QueueMacro.queueOf_write, LockedState.goto_pc_self]
    · exact hfit
    · exact hread
    · exact fun hc => by rw [hclosed] at hc; cases hc
    · simpa using hl.write_move hm

/-- **A step in `get_context_from_queue`.** -/
theorem LocksOK.read_macro (h : LocksOK P s) {z : Option α} {point : Point} (hp : s.pc w = .queue (.get z) point)
    (hs : s.stepMacro P w (.get z) point = some s') : LocksOK P s' := by
  have hfit := h.fits w
  rw [hp] at hfit
  obtain ⟨h0, hw⟩ : 0 < w ∧ w ≤ P.last := hfit
  obtain ⟨v, rfl⟩ : ∃ v, w = v + 1 := ⟨w - 1, by omega⟩
  rcases stepMacro_cases hs with ⟨rfl, rfl⟩ | ⟨p, q, o, hm, rfl⟩
  · -- the writer is woken first
    have hkeep : (s.notifyAll v).pc (v + 1) = .queue (.get z) .notify := by
      rw [pc_notifyAll_of_ne (by simp [hp]), hp]
    have hl := (h.notifyAll v).link v (by omega)
    rw [hkeep] at hl
    refine (h.notifyAll v).read_step hkeep (fun u hu => LockedState.goto_pc_of_ne hu ..)
      (fun u hu => ⟨rfl, rfl, rfl⟩) ?_ ?_ ?_ ?_ ?_ <;>
      simp only [QueueMacro.queueOf_get, LockedState.goto_pc_self]
    · exact ⟨h0, hw⟩
    · rfl
    · simp
    · simp
    · exact hl.read_notify (writeAt_notifyAll v)
  · obtain ⟨hfit, hwrite, hn, hr⟩ := hm.read_pc h0 hw
    have hl := h.link v (by omega)
    rw [hp] at hl
    refine h.read_step hp (fun u hu => LockedState.goto_pc_of_ne hu ..) (fun u hu => moved_same v q o p s hu)
      ?_ ?_ ?_ ?_ ?_ <;> simp only [LockedState.goto_pc_self]
    · exact hfit
    · exact hwrite
    · exact hn
    · exact hr
    · simpa using hl.read_move hm

/-- **A worker on its own** goes from its own code to a lock, or is done, or crashes. -/
theorem LocksOK.own_step (h : LocksOK P s) {p : Pc α} (hp : s.pc w = .produce ∨ ∃ a, s.pc w = .work a)
    (hfits : p.Fits P.last w)
    (hp' : (∃ m, p = .queue m .lock) ∨ (w = 0 ∧ p = .setDone) ∨ p = .crashed) (l : σ w) :
    LocksOK P ((s.setLoc w l).goto w p) := by
  have hread : (s.pc w).readAt = none := by grind
  refine h.write_step (w := w) hread (fun u hu => LockedState.goto_pc_of_ne hu ..) (fun v hv => ⟨rfl, rfl, rfl⟩)
    ?_ ?_ ?_ fun hw => ?_ <;> simp only [LockedState.goto_pc_self]
  · exact hfits
  · rcases hp' with ⟨m, rfl⟩ | ⟨-, rfl⟩ | rfl
    · cases m
      · exact .inr rfl
      · exact .inl rfl
    · exact .inl rfl
    · exact .inl rfl
  · grind
  · have hl := h.link w hw
    refine hl.writer_away (by grind) (by grind) (by grind) ?_ (by grind) (by grind)
    rcases hp' with ⟨m, rfl⟩ | ⟨-, rfl⟩ | rfl
    · cases m
      · exact .inl rfl
      · exact .inr rfl
    · exact .inl rfl
    · exact .inl rfl

/-- **`task_done`**: the flag. -/
theorem LocksOK.setDone_step (h : LocksOK P s) (hp : s.pc w = .setDone) :
    LocksOK P ((s.setDone w).goto w .notifyDone) := by
  have hw : w < P.last := by
    have hfit := h.fits w
    rwa [hp] at hfit
  refine h.write_step (w := w) (by rw [hp]; rfl) (fun u hu => LockedState.goto_pc_of_ne hu ..)
    (fun v hv => by simp [hv]) ?_ ?_ ?_ fun _ => ?_ <;> simp only [LockedState.goto_pc_self]
  · exact hw
  · exact .inl rfl
  · exact fun _ => .inr (by rw [hp]; rfl)
  · have hl := h.link w hw
    rw [hp] at hl
    simpa using hl.setDone

/-- **`task_done`**: its notification, where it is heard. -/
theorem LocksOK.notifyDone_step (h : LocksOK P s) (hp : s.pc w = .notifyDone)
    (heard : ∀ z, s.pc (w + 1) ≠ .queue (.get z) .sleep) : LocksOK P ((s.notifyAll w).goto w .returned) := by
  have hw : w < P.last := by
    have hfit := h.fits w
    rwa [hp] at hfit
  have hkeep : (s.notifyAll w).pc w = .notifyDone := by rw [pc_notifyAll_of_ne (by simp [hp]), hp]
  have hsleep : ((s.notifyAll w).pc (w + 1)).readAt ≠ some .sleep := by
    rcases pc_notifyAll w (w + 1) s with ⟨m, -, -, hm⟩ | ⟨-, hm⟩
    · rw [hm]
      cases m <;> simp [Pc.readAt]
    · rw [hm]
      intro he
      obtain ⟨z, hz⟩ := Pc.readAt_eq_some he
      exact heard z hz
  have hl := (h.notifyAll w).link w hw
  rw [hkeep] at hl
  refine (h.notifyAll w).write_step (w := w) (by rw [hkeep]; rfl) (fun u hu => LockedState.goto_pc_of_ne hu ..)
    (fun v hv => ⟨rfl, rfl, rfl⟩) ?_ ?_ ?_ fun _ => ?_ <;> simp only [LockedState.goto_pc_self]
  · trivial
  · exact .inl rfl
  · exact fun _ => .inr (by rw [hkeep]; rfl)
  · exact hl.notifyDone (readAt_notifyAll w) hsleep

/-- **A step of a worker**, where its notification is heard. -/
theorem locksOK_step (h : LocksOK P s) (hlast : 0 < P.last) (hs : s.step P w = some s')
    (heard : s.pc w = .notifyDone → ∀ z, s.pc (w + 1) ≠ .queue (.get z) .sleep) : LocksOK P s' := by
  have hfit := h.fits w
  unfold LockedState.step at hs
  cases hp : s.pc w with
  | produce =>
    rw [hp] at hs hfit
    obtain rfl : w = 0 := hfit
    simp only at hs
    split at hs
    · obtain rfl := Option.some.inj hs
      exact h.own_step (.inl hp) (p := .queue (.write _) .lock) hlast (.inl ⟨_, rfl⟩) _
    · obtain rfl := Option.some.inj hs
      exact h.own_step (.inl hp) (p := .setDone) hlast (.inr (.inl ⟨rfl, rfl⟩)) _
    · obtain rfl := Option.some.inj hs
      have hc := h.own_step (.inl hp) (p := .crashed) (Nat.zero_le _) (.inr (.inr rfl)) (s.loc 0)
      rwa [LockedState.setLoc_self] at hc
  | queue m point =>
    rw [hp] at hs
    cases m with
    | get z => exact h.read_macro hp hs
    | write a => exact h.write_macro hp hs
  | work a =>
    rw [hp] at hs hfit
    obtain ⟨h0, hw⟩ : 0 < w ∧ w ≤ P.last := hfit
    simp only at hs
    split at hs
    · obtain rfl := Option.some.inj hs
      refine h.own_step (.inr ⟨_, hp⟩) ?_ (.inl ?_) _
      · split
        · exact ⟨h0, hw⟩
        · show w < P.last
          omega
      · split
        · exact ⟨_, rfl⟩
        · exact ⟨_, rfl⟩
    · obtain rfl := Option.some.inj hs
      have hc := h.own_step (.inr ⟨_, hp⟩) (p := .crashed) hw (.inr (.inr rfl)) (s.loc w)
      rwa [LockedState.setLoc_self] at hc
  | setDone =>
    rw [hp] at hs
    obtain rfl := Option.some.inj hs
    exact h.setDone_step hp
  | notifyDone =>
    rw [hp] at hs
    obtain rfl := Option.some.inj hs
    exact h.notifyDone_step hp (heard hp)
  | returned => rw [hp] at hs; cases hs
  | crashed => rw [hp] at hs; cases hs

/-! ## Nobody is stuck -/

/-- **Who is blocked for nothing will be notified.** -/
theorem LocksOK.notifying (h : LocksOK P s) {m : QueueMacro α} (hp : s.pc w = .queue m .blocked)
    (hr : s.ready P w m = true) : s.Notifying P (m.queueOf w) := by
  have hfit := h.fits w
  rw [hp] at hfit
  cases m with
  | write a =>
    have hw : w < P.last := hfit
    have hl := h.link w hw
    rw [hp] at hl
    obtain ⟨z, hz⟩ := Pc.readAt_eq_some (hl.writeBlocked rfl (by simpa using hr))
    exact ⟨w + 1, hw, .inl ⟨_, hz, rfl⟩⟩
  | get z =>
    obtain ⟨h0, hw⟩ : 0 < w ∧ w ≤ P.last := hfit
    obtain ⟨v, rfl⟩ : ∃ v, w = v + 1 := ⟨w - 1, by omega⟩
    have hl := h.link v (by omega)
    rw [hp] at hl
    rcases hl.readBlocked rfl (by simpa using hr) with hc | hc
    · obtain ⟨a, ha⟩ := Pc.writeAt_eq_some hc
      exact ⟨v, by omega, .inl ⟨_, ha, rfl⟩⟩
    · exact ⟨v, by omega, .inr ⟨hc, rfl⟩⟩

/-- A worker that cannot step has returned or crashed, or is blocked, or waits for a lock. -/
theorem step_none (hfit : (s.pc w).Fits P.last w) (hs : s.step P w = none) :
    s.pc w = .returned ∨ s.pc w = .crashed ∨ (∃ m, s.pc w = .queue m .blocked) ∨
      ∃ m, (s.pc w = .queue m .lock ∨ s.pc w = .queue m .wake) ∧ s.owner (m.queueOf w) ≠ none := by
  unfold LockedState.step at hs
  cases hp : s.pc w with
  | produce =>
    rw [hp] at hs hfit
    obtain rfl : w = 0 := hfit
    simp only at hs
    split at hs <;> cases hs
  | queue m point =>
    rw [hp] at hs
    have hlock : (if s.owner (m.queueOf w) = none then
        some ((s.setOwner (m.queueOf w) (some w)).goto w (.queue m .test)) else none) = none →
        s.owner (m.queueOf w) ≠ none := fun hs hnone => by simp [hnone] at hs
    cases point with
    | lock => exact .inr (.inr (.inr ⟨m, .inl rfl, hlock hs⟩))
    | wake => exact .inr (.inr (.inr ⟨m, .inr rfl, hlock hs⟩))
    | blocked => exact .inr (.inr (.inl ⟨m, rfl⟩))
    | body =>
      simp only [LockedState.stepMacro] at hs
      split at hs
      · split at hs <;> cases hs
      · cases hs
    | test | sleep | notify | unlock => cases hs
  | work a =>
    rw [hp] at hs
    simp only at hs
    split at hs <;> cases hs
  | setDone | notifyDone => rw [hp] at hs; cases hs
  | returned => exact .inl rfl
  | crashed => exact .inr (.inl rfl)

/-- Who has a lock can step. -/
theorem step_of_holds {m : QueueMacro α} {point : Point} (hp : s.pc w = .queue m point) (hx : point.holds = true) :
    s.step P w ≠ none := by
  intro hs
  unfold LockedState.step at hs
  rw [hp] at hs
  cases point with
  | body =>
    simp only [LockedState.stepMacro] at hs
    split at hs
    · split at hs <;> cases hs
    · cases hs
  | test | sleep | notify | unlock => cases hs
  | lock | wake | blocked => cases hx

/-- **In a stuck state** a worker has returned or is blocked with reason. -/
theorem LocksOK.blocked_of_stuck (h : LocksOK P s) (hstuck : s.Stuck P) (hw : w ≤ P.last) :
    s.pc w = .returned ∨ ∃ m, s.pc w = .queue m .blocked ∧ s.ready P w m = false := by
  rcases step_none (h.fits w) (hstuck.halted w hw) with hp | hp | ⟨m, hp⟩ | ⟨m, hp, howner⟩
  · exact .inl hp
  · exact absurd hp (hstuck.running w hw)
  · refine .inr ⟨m, hp, Bool.eq_false_iff.2 fun hr => ?_⟩
    -- its notifier could step
    obtain ⟨u, hu, ⟨m', hn, -⟩ | ⟨hn, -⟩⟩ := h.notifying hp hr
    · exact step_of_holds hn rfl (hstuck.halted u hu)
    · have hs := hstuck.halted u hu
      unfold LockedState.step at hs
      rw [hn] at hs
      cases hs
  · -- so could who has the lock
    exfalso
    have hfit := h.fits w
    have hx : m.queueOf w < P.last := by
      rcases hp with hp | hp <;> rw [hp] at hfit <;> cases m <;> simp only [Pc.Fits] at hfit <;>
        simp only [QueueMacro.queueOf] <;> omega
    have hl := h.link _ hx
    obtain ⟨u, hu⟩ := Option.ne_none_iff_exists'.1 howner
    rcases hl.owner u hu with rfl | rfl
    · obtain ⟨x, hpx, hholds⟩ := hl.writer.1 hu
      obtain ⟨a, ha⟩ := Pc.writeAt_eq_some hpx
      exact step_of_holds ha hholds (hstuck.halted _ (by omega))
    · obtain ⟨x, hpx, hholds⟩ := hl.reader.1 hu
      obtain ⟨z, hz⟩ := Pc.readAt_eq_some hpx
      exact step_of_holds hz hholds (hstuck.halted _ (by omega))

/-- **No writer is blocked** where everybody is: its queue is full, so the reader behind it would be blocked
as a writer too, and so on up to the last worker, which writes nothing. -/
theorem LocksOK.no_write_blocked (h : LocksOK P s) (hcap : 0 < P.cap) (hstuck : s.Stuck P) (n : ℕ) :
    ∀ w, w + n = P.last → ∀ a, s.pc w ≠ .queue (.write a) .blocked := by
  induction n with
  | zero =>
    intro w hw a hp
    have hfit := h.fits w
    rw [hp] at hfit
    have hlt : w < P.last := hfit
    omega
  | succ n ih =>
    intro w hw a hp
    have hl := h.link w (by omega)
    have hfull : P.cap ≤ (s.queue w).length := by
      rcases h.blocked_of_stuck hstuck (w := w) (by omega) with hret | ⟨m, hm, hr⟩
      · rw [hret] at hp; cases hp
      · obtain ⟨rfl, -⟩ := Pc.queue.inj (hp.symm.trans hm)
        simpa using hr
    have hne : s.queue w ≠ [] := List.ne_nil_of_length_pos (by omega)
    rcases h.blocked_of_stuck hstuck (w := w + 1) (by omega) with hret | ⟨m, hm, hr⟩
    · rw [hret] at hl
      exact hne (hl.through rfl).1
    · cases m with
      | write b => exact ih (w + 1) (by omega) b hm
      | get z => simp [hne] at hr

/-- **No reader is blocked**: its queue is not marked, so the worker before it has not returned, and is a
blocked reader too; worker 0 reads from no queue. -/
theorem LocksOK.no_get_blocked (h : LocksOK P s) (hcap : 0 < P.cap) (hstuck : s.Stuck P) (w : ℕ) :
    w ≤ P.last → ∀ z, s.pc w ≠ .queue (.get z) .blocked := by
  induction w with
  | zero =>
    intro _ z hp
    have hfit := h.fits 0
    rw [hp] at hfit
    exact absurd hfit.1 (lt_irrefl 0)
  | succ v ih =>
    intro hv z hp
    have hl := h.link v (by omega)
    have hopen : s.done v = false := by
      rcases h.blocked_of_stuck hstuck (w := v + 1) hv with hret | ⟨m, hm, hr⟩
      · rw [hret] at hp; cases hp
      · obtain ⟨rfl, -⟩ := Pc.queue.inj (hp.symm.trans hm)
        rw [LockedState.ready_get, Bool.or_eq_false_iff] at hr
        exact hr.2
    rcases h.blocked_of_stuck hstuck (w := v) (by omega) with hret | ⟨m, hm, hr⟩
    · rw [hl.flag.2 (.inr hret)] at hopen
      cases hopen
    · cases m with
      | write b => exact h.no_write_blocked hcap hstuck (P.last - v) v (by omega) b hm
      | get z => exact ih (by omega) z hm

/-- **No state is stuck**: whoever has not returned would be blocked as a writer or as a reader. -/
theorem LocksOK.not_stuck (h : LocksOK P s) (hcap : 0 < P.cap) : ¬ s.Stuck P := by
  intro hstuck
  obtain ⟨w, hw, hne⟩ := hstuck.unreturned
  rcases h.blocked_of_stuck hstuck hw with hret | ⟨m, hm, hr⟩
  · exact hne hret
  · cases m with
    | write b => exact h.no_write_blocked hcap hstuck (P.last - w) w (by omega) b hm
    | get z => exact h.no_get_blocked hcap hstuck w hw z hm

/-- **A notification that is not heard** leaves the reader blocked for nothing. -/
theorem LocksOK.unheard (h : LocksOK P s) (hp : s.pc w = .notifyDone) {z : Option α}
    (hc : s.pc (w + 1) = .queue (.get z) .sleep) :
    ∃ s₁ s₂, s.step P w = some s₁ ∧ s₁.step P (w + 1) = some s₂ ∧ s₂.pc (w + 1) = .queue (.get z) .blocked ∧
      s₂.ready P (w + 1) (.get z) = true ∧ ¬ s₂.Notifying P w := by
  have hw : w < P.last := by
    have hfit := h.fits w
    rwa [hp] at hfit
  have hflag : s.done w = true := (h.link w hw).flag.2 (.inl hp)
  have hkeep : ((s.notifyAll w).goto w .returned).pc (w + 1) = .queue (.get z) .sleep := by
    rw [LockedState.goto_pc_of_ne (by omega), pc_notifyAll_of_ne (by simp [hc]), hc]
  refine ⟨(s.notifyAll w).goto w .returned,
    (((s.notifyAll w).goto w .returned).setOwner w none).goto (w + 1) (.queue (.get z) .blocked), ?_, ?_, ?_, ?_, ?_⟩
  · simp only [LockedState.step, hp]
  · simp only [LockedState.step, hkeep]
    rfl
  · simp
  · simp [hflag]
  · -- the other workers are at other queues
    rintro ⟨u, -, ⟨m, hm, hq⟩ | ⟨hm, rfl⟩⟩
    · have hu : u = w ∨ u = w + 1 := by
        cases m with
        | get y =>
          have hq' : u - 1 = w := hq
          omega
        | write a => exact .inl hq
      rcases hu with rfl | rfl
      · simp at hm
      · simp at hm
    · simp at hm

/-! ## `AddFile` and `main` -/

/-- No file is being added. -/
structure Idle (P : Program σ α) (s : LockedState σ α) : Prop where
  returned : ∀ w, s.pc w = .returned
  queue : ∀ v < P.last, s.queue v = []
  owner : ∀ v < P.last, s.owner v = none

theorem Idle.setLoc (h : Idle P s) {l : σ w} : Idle P (s.setLoc w l) := ⟨h.returned, h.queue, h.owner⟩

/-- **The workers start.** -/
theorem Idle.start (h : Idle P s) : LocksOK P (s.start P) := by
  refine ⟨fun w => ?_, fun v hv => ?_⟩
  · simp only [LockedState.start]
    split
    · assumption
    · split
      · exact ⟨by omega, by assumption⟩
      · trivial
  · have hpc : (s.start P).pc (v + 1) = .queue (.get none) .lock := by simp [LockedState.start]; omega
    have hp : (s.start P).pc v = .produce ∨ (s.start P).pc v = .queue (.get none) .lock := by
      simp only [LockedState.start]
      split
      · exact .inl rfl
      · exact .inr (if_pos hv.le)
    rw [hpc]
    have hq : (s.start P).queue v = [] := h.queue v hv
    have ho : (s.start P).owner v = none := h.owner v hv
    have hd : (s.start P).done v = false := rfl
    rw [hq, ho, hd]
    have hopen : (Pc.queue (.get none) .lock : Pc α).closed = false := rfl
    generalize (s.start P).pc v = p at hp
    constructor <;> grind

/-- **They are joined.** -/
theorem LocksOK.idle (h : LocksOK P s) (hret : ∀ w ≤ P.last, s.pc w = .returned) : Idle P s := by
  refine ⟨fun w => ?_, fun v hv => ?_, fun v hv => ?_⟩
  · by_cases hw : w ≤ P.last
    · exact hret w hw
    · have hfit := h.fits w
      cases hp : s.pc w with
      | returned => rfl
      | produce => rw [hp] at hfit; have : w = 0 := hfit; omega
      | queue m point =>
        rw [hp] at hfit
        cases m <;> simp only [Pc.Fits] at hfit <;> omega
      | work | setDone | notifyDone | crashed =>
        rw [hp] at hfit
        simp only [Pc.Fits] at hfit
        omega
  · have hl := h.link v hv
    rw [hret (v + 1) hv] at hl
    exact (hl.through rfl).1
  · have hl := h.link v hv
    rw [hret (v + 1) hv, hret v hv.le] at hl
    refine Option.eq_none_iff_forall_ne_some.2 fun u hu => ?_
    rcases hl.owner u hu with rfl | rfl
    · obtain ⟨x, hx, -⟩ := hl.writer.1 hu
      cases hx
    · obtain ⟨x, hx, -⟩ := hl.reader.1 hu
      cases hx

namespace LockedRun

variable {κ ι φ : Type} [Chunker κ] [Index ι φ] [Inhabited φ] {feature : Chunk → φ} {r r' : LockedRun κ ι φ}

/-- **Between files and in a file.** -/
structure RunOK (feature : Chunk → φ) (r : LockedRun κ ι φ) : Prop where
  idle : r.adding = false → Idle (workers feature) r.pipe
  locks : r.adding = true → LocksOK (workers feature) r.pipe

theorem runOK_new (feature : Chunk → φ) (k : κ) (index : ι) (cacheSize : ℕ) (files : List (String × FileContent)) :
    RunOK feature (.new k index cacheSize files) :=
  ⟨fun _ => ⟨fun _ => rfl, fun _ _ => rfl, fun _ _ => rfl⟩, fun h => (nomatch h)⟩

/-- **A step of `main` or of a worker.** -/
theorem RunOK.step {a : Actor} (h : RunOK feature r) (heard : NotifyHeard r a) (hs : step feature a r = some r') :
    RunOK feature r' := by
  cases a with
  | worker w =>
    obtain ⟨pipe, hpipe, rfl⟩ := Option.map_eq_some_iff.1 hs
    refine ⟨fun hadd => ?_, fun hadd => ?_⟩
    · -- nobody is there to step
      unfold LockedState.step at hpipe
      rw [(h.idle hadd).returned w] at hpipe
      cases hpipe
    · exact locksOK_step (h.locks hadd) (Nat.zero_lt_succ 3) hpipe fun hp => heard w rfl hp
  | main =>
    rw [LockedRun.step] at hs
    split at hs
    · rename_i hadd
      split at hs
      · rename_i hall
        obtain rfl := Option.some.inj hs
        refine ⟨fun _ => (h.locks hadd).idle fun w hw => ?_, fun h => (nomatch h)⟩
        have hret := List.all_eq_true.1 hall w (List.mem_range.2 (Nat.lt_succ_of_le hw))
        revert hret
        cases r.pipe.pc w <;> simp [Pc.isReturned]
      · cases hs
    · rename_i hadd
      split at hs
      · cases hs
      · obtain rfl := Option.some.inj hs
        have hidle := h.idle (by simpa using hadd)
        exact ⟨fun h => (nomatch h), fun _ => hidle.setLoc.start⟩

theorem runOK_of_runs (hr : Runs feature NotifyHeard r r') (h : RunOK feature r) : RunOK feature r' := by
  induction hr with
  | start => exact h
  | step _ heard hs ih => exact ih.step heard hs

/-- A run, then another. -/
theorem Runs.trans {Meets : LockedRun κ ι φ → Actor → Prop} {r r₁ r₂ : LockedRun κ ι φ} (h : Runs feature Meets r r₁)
    (h' : Runs feature Meets r₁ r₂) : Runs feature Meets r r₂ := by
  induction h' with
  | start => exact h
  | step _ hmeets hs ih => exact ih.step hmeets hs

/-- A run, from a way to compute its steps. -/
theorem runs_of_foldlM {Meets : LockedRun κ ι φ → Actor → Prop} {next : LockedRun κ ι φ → Actor → Option (LockedRun κ ι φ)}
    (hnext : ∀ {r a r'}, next r a = some r' → Meets r a ∧ step feature a r = some r') (schedule : List Actor)
    {r r' : LockedRun κ ι φ} (h : schedule.foldlM next r = some r') : Runs feature Meets r r' := by
  induction schedule using List.reverseRecOn generalizing r' with
  | nil =>
    cases h
    exact .start r
  | append_singleton as a ih =>
    rw [List.foldlM_append] at h
    obtain ⟨r₁, h₁, h⟩ := Option.bind_eq_some_iff.1 h
    rw [List.foldlM_cons] at h
    obtain ⟨r₂, h₂, h⟩ := Option.bind_eq_some_iff.1 h
    cases h
    obtain ⟨hmeets, hs⟩ := hnext h₂
    exact (ih h₁).step hmeets hs

theorem runs_of_exec {schedule : List Actor} {r r' : LockedRun κ ι φ} (h : exec feature schedule r = some r') :
    Runs feature (fun _ _ => True) r r' :=
  runs_of_foldlM (fun h => ⟨trivial, h⟩) schedule h

/-- Whether the notification is heard. -/
def heard (r : LockedRun κ ι φ) : Actor → Bool
  | .main => true
  | .worker v =>
    match r.pipe.pc v, r.pipe.pc (v + 1) with
    | .notifyDone, .queue (.get _) .sleep => false
    | _, _ => true

omit [Chunker κ] [Index ι φ] [Inhabited φ] in
theorem notifyHeard_of_heard {a : Actor} (h : heard r a = true) : NotifyHeard r a := by
  rintro v rfl hp z hz
  rw [heard, hp, hz] at h
  cases h

/-- The state after a schedule in which each notification is heard. -/
def execHeard (feature : Chunk → φ) (schedule : List Actor) (r : LockedRun κ ι φ) : Option (LockedRun κ ι φ) :=
  schedule.foldlM (fun r a => if heard r a then step feature a r else none) r

theorem runs_of_execHeard {schedule : List Actor} {r r' : LockedRun κ ι φ}
    (h : execHeard feature schedule r = some r') : Runs feature NotifyHeard r r' := by
  refine runs_of_foldlM (fun {r a r'} hs => ?_) schedule h
  by_cases hheard : heard r a = true
  · rw [if_pos hheard] at hs
    exact ⟨notifyHeard_of_heard hheard, hs⟩
  · rw [if_neg hheard] at hs
    cases hs

end LockedRun

/-- **Where one is not heard**, the two steps that follow leave the next worker blocked for nothing. -/
theorem pipeline_unheard {κ ι φ : Type} [Chunker κ] [Index ι φ] [Inhabited φ] (feature : Chunk → φ) (k : κ)
    (index : ι) (cacheSize : ℕ) (files : List (String × FileContent)) {r : LockedRun κ ι φ}
    (hr : LockedRun.Runs feature LockedRun.NotifyHeard (.new k index cacheSize files) r) {v : ℕ}
    {z : Option (Context φ)} (hp : r.pipe.pc v = .notifyDone) (hc : r.pipe.pc (v + 1) = .queue (.get z) .sleep) :
    ∃ r₁ r₂, LockedRun.step feature (.worker v) r = some r₁ ∧ LockedRun.step feature (.worker (v + 1)) r₁ = some r₂ ∧
      r₂.pipe.pc (v + 1) = .queue (.get z) .blocked ∧
      r₂.pipe.ready (workers feature) (v + 1) (.get z) = true ∧ ¬ r₂.pipe.Notifying (workers feature) v := by
  have h := LockedRun.runOK_of_runs hr (LockedRun.runOK_new feature k index cacheSize files)
  have hadd : r.adding = true := by
    by_contra hidle
    have hret := (h.idle (by simpa using hidle)).returned v
    rw [hp] at hret
    cases hret
  obtain ⟨s₁, s₂, h₁, h₂, hblocked, hready, hnot⟩ := (h.locks hadd).unheard hp hc
  exact ⟨{ r with pipe := s₁ }, { r with pipe := s₂ }, Option.map_eq_some_iff.2 ⟨s₁, h₁, rfl⟩,
    Option.map_eq_some_iff.2 ⟨s₂, h₂, rfl⟩, hblocked, hready, hnot⟩

/-- **The pipeline does not get stuck** where each notification of `task_done` is heard: who is blocked for
nothing is about to be notified, and some worker can step until all have returned. -/
theorem pipeline_not_stuck {κ ι φ : Type} [Chunker κ] [Index ι φ] [Inhabited φ] (feature : Chunk → φ) (k : κ)
    (index : ι) (cacheSize : ℕ) (files : List (String × FileContent)) {r : LockedRun κ ι φ}
    (hr : LockedRun.Runs feature LockedRun.NotifyHeard (.new k index cacheSize files) r) :
    (∀ w m, r.pipe.pc w = .queue m .blocked → r.pipe.ready (workers feature) w m = true →
      r.pipe.Notifying (workers feature) (m.queueOf w)) ∧ ¬ r.pipe.Stuck (workers feature) := by
  have h := LockedRun.runOK_of_runs hr (LockedRun.runOK_new feature k index cacheSize files)
  cases hadd : r.adding with
  | true =>
    exact ⟨fun w m hp hready => (h.locks hadd).notifying hp hready, (h.locks hadd).not_stuck (Nat.zero_lt_succ 127)⟩
  | false =>
    have hidle := h.idle hadd
    refine ⟨fun w m hp => ?_, fun hstuck => ?_⟩
    · rw [hidle.returned w] at hp
      cases hp
    · obtain ⟨w, -, hne⟩ := hstuck.unreturned
      exact hne (hidle.returned w)

/-- Worker 1 has handed on the only chunk and blocks again. Worker 0 is through and about to notify: it is heard, and
worker 1 goes on. -/
theorem pipeline_not_stuck_blocked : ∃ r r' : LockedRun FastCDC BestFitIndex (Feature ℚ),
    LockedRun.Runs OdessSubfeatures.call LockedRun.NotifyHeard
      (.new (FastCDC.new 1 1 0) (BestFitIndex.new (.byInsertion _) 12) 1 [("a", some [7])]) r ∧
    r.pipe.pc 1 = .queue (.get none) .blocked ∧
    r.pipe.ready (workers OdessSubfeatures.call) 1 (.get none) = true ∧
    r.pipe.Notifying (workers OdessSubfeatures.call) 0 ∧ ¬r.pipe.Stuck (workers OdessSubfeatures.call) ∧
    LockedRun.step OdessSubfeatures.call (.worker 0) r = some r' ∧ r'.pipe.pc 1 = .queue (.get none) .wake ∧
    ¬r'.pipe.Stuck (workers OdessSubfeatures.call) := by
  let start : LockedRun FastCDC BestFitIndex (Feature ℚ) :=
    .new (FastCDC.new 1 1 0) (BestFitIndex.new (.byInsertion _) 12) 1 [("a", some [7])]
  let schedule : List Actor :=
    .main :: ([(1, 3), (0, 7), (1, 14), (0, 1)].flatMap fun x => List.replicate x.2 (.worker x.1))
  have hrun : ((LockedRun.execHeard OdessSubfeatures.call schedule start).map fun r =>
      (r.pipe.pc 1, r.pipe.ready (workers OdessSubfeatures.call) 1 (.get none))) =
        some (.queue (.get none) .blocked, true) := by decide +kernel
  have hrun' : (LockedRun.execHeard OdessSubfeatures.call (schedule ++ [.worker 0]) start).map (fun r => r.pipe.pc 1) =
      some (.queue (.get none) .wake) := by decide +kernel
  obtain ⟨r, hr, hobs⟩ := Option.map_eq_some_iff.1 hrun
  obtain ⟨hblocked, hready⟩ := Prod.mk.inj hobs
  obtain ⟨r', hr', hwake⟩ := Option.map_eq_some_iff.1 hrun'
  have hstep : LockedRun.step OdessSubfeatures.call (.worker 0) r = some r' := by
    rw [LockedRun.execHeard, List.foldlM_append, show schedule.foldlM _ start = some r from hr] at hr'
    rw [Option.bind_eq_bind, Option.bind_some, List.foldlM_cons] at hr'
    obtain ⟨r₂, hlast, hr₂⟩ := Option.bind_eq_some_iff.1 hr'
    cases hr₂
    split at hlast
    · exact hlast
    · cases hlast
  obtain ⟨hnotify, hstuck⟩ := pipeline_not_stuck OdessSubfeatures.call _ _ _ _ (LockedRun.runs_of_execHeard hr)
  exact ⟨r, r', LockedRun.runs_of_execHeard hr, hblocked, hready, hnotify 1 (.get none) hblocked hready, hstuck, hstep,
    hwake, (pipeline_not_stuck OdessSubfeatures.call _ _ _ _ (LockedRun.runs_of_execHeard hr')).2⟩

/-- A file without chunks: worker 1 tests, worker 0 is through, worker 1 blocks. -/
theorem pipeline_gets_stuck :
    ∃ r : LockedRun FastCDC BestFitIndex (Feature ℚ),
      LockedRun.Runs OdessSubfeatures.call (fun _ _ => True)
        (.new (FastCDC.new 1 1 0) (BestFitIndex.new (.byInsertion _) 12) 1 [("a", some [])]) r ∧
      r.pipe.pc 1 = .queue (.get none) .blocked ∧ r.pipe.ready (workers OdessSubfeatures.call) 1 (.get none) = true ∧
      ¬ r.pipe.Notifying (workers OdessSubfeatures.call) 0 ∧ r.pipe.Stuck (workers OdessSubfeatures.call) := by
  let schedule : List Actor := .main :: [2, 2, 2, 3, 3, 3, 4, 4, 4, 1, 1, 0, 0, 0, 1].map .worker
  have hrun : (LockedRun.exec OdessSubfeatures.call schedule
      (.new (FastCDC.new 1 1 0) (BestFitIndex.new (.byInsertion _) 12) 1 [("a", some [])])).map
        (fun r : LockedRun FastCDC BestFitIndex (Feature ℚ) =>
          ((List.range 5).map r.pipe.pc, r.pipe.ready (workers OdessSubfeatures.call) 1 (.get none))) =
      some (.returned :: List.replicate 4 (.queue (.get none) .blocked), true) := by decide +kernel
  obtain ⟨r, hr, hobs⟩ := Option.map_eq_some_iff.1 hrun
  obtain ⟨hpcs, hready⟩ := Prod.mk.inj hobs
  have hpc : ∀ w ≤ 4, r.pipe.pc w = .returned ∨ r.pipe.pc w = .queue (.get none) .blocked := by
    intro w hw
    have hmem : r.pipe.pc w ∈ (List.range 5).map r.pipe.pc :=
      List.mem_map_of_mem (List.mem_range.2 (Nat.lt_succ_of_le hw))
    rw [hpcs] at hmem
    rcases List.mem_cons.1 hmem with h | h
    · exact .inl h
    · exact .inr (List.eq_of_mem_replicate h)
  have h1 : r.pipe.pc 1 = .queue (.get none) .blocked := by
    have hget := congrArg (fun l => l[1]?) hpcs
    simpa using hget
  refine ⟨r, LockedRun.runs_of_exec hr, h1, hready, ?_, ?_, ⟨1, ?_, ?_⟩, ?_⟩
  · rintro ⟨u, hu, ⟨m, hm, -⟩ | ⟨hm, -⟩⟩
    · rcases hpc u hu with h | h <;> rw [h] at hm <;> cases hm
    · rcases hpc u hu with h | h <;> rw [h] at hm <;> cases hm
  · intro w hw hc
    rcases hpc w hw with h | h <;> rw [h] at hc <;> cases hc
  · exact Nat.succ_le_succ (Nat.zero_le _)
  · rw [h1]; simp
  · intro w hw
    unfold LockedState.step
    rcases hpc w hw with h | h
    · rw [h]
    · rw [h]
      rfl

end ChunkGrouping
