import ChunkGrouping.Model.PipelineLocks

/-!
# Two workers and the queue between them

A queue has one worker that writes to it and one that reads from it. What holds of the two
of them, the queue, its flag and its lock (`LinkOK`) is kept by every step of either:
whoever changes what the other waits for has the lock and notifies before releasing it.

`task_done` does not take the lock. The flag it sets can come between a test of the reader
that failed and its blocking; only its `notify_all` is then still to come (`unheard`,
`readBlocked`).

* `stepMacro_cases`: what a step in a macro does.
* `LinkOK.write_move`, `LinkOK.read_move`: such a step of the writer or of the reader;
  `LinkOK.notifyDone` for the one that can go wrong.
-/

namespace ChunkGrouping

open BoundedPipeline

variable {σ : ℕ → Type} {α : Type}

/-! ## A step in a macro -/

/-- **What a step in a macro does**, other than `notify_all`: worker `w`, at `point`, sees whether its
predicate holds, the queue and who has the lock; it leaves the queue, the lock and where it is next. -/
inductive MacroStep (P : Program σ α) (w : ℕ) (ready : Bool) : QueueMacro α → Point → List α → Option ℕ →
    Pc α → List α → Option ℕ → Prop
  | lock {m : QueueMacro α} {point : Point} {q : List α} : point = .lock ∨ point = .wake →
      MacroStep P w ready m point q none (.queue m .test) q (some w)
  | pass {m : QueueMacro α} {q : List α} {o : Option ℕ} : ready = true →
      MacroStep P w ready m .test q o (.queue m .body) q o
  | fail {m : QueueMacro α} {q : List α} {o : Option ℕ} : ready = false →
      MacroStep P w ready m .test q o (.queue m .sleep) q o
  | sleep {m : QueueMacro α} {q : List α} {o : Option ℕ} :
      MacroStep P w ready m .sleep q o (.queue m .blocked) q none
  | take {z : Option α} {a : α} {q : List α} {o : Option ℕ} :
      MacroStep P w ready (.get z) .body (a :: q) o (.queue (.get (some a)) .notify) q o
  | empty {z : Option α} {o : Option ℕ} :
      MacroStep P w ready (.get z) .body [] o (.queue (.get z) .notify) [] o
  | put {a : α} {q : List α} {o : Option ℕ} :
      MacroStep P w ready (.write a) .body q o (.queue (.write a) .notify) (q ++ [a]) o
  | unlock {m : QueueMacro α} {q : List α} {o : Option ℕ} :
      MacroStep P w ready m .unlock q o (LockedState.after P w m) q none

variable {P : Program σ α} {s s' : LockedState σ α} {w : ℕ}

theorem stepMacro_cases {m : QueueMacro α} {point : Point} (hs : s.stepMacro P w m point = some s') :
    (point = .notify ∧ s' = (s.notifyAll (m.queueOf w)).goto w (.queue m .unlock)) ∨
      ∃ p q o, MacroStep P w (s.ready P w m) m point (s.queue (m.queueOf w)) (s.owner (m.queueOf w)) p q o ∧
        s' = ((s.setQueue (m.queueOf w) q).setOwner (m.queueOf w) o).goto w p := by
  set x := m.queueOf w with hx
  -- a worker that wants the lock steps only when nobody has it, whether it comes or wakes up
  have hlock : point = .lock ∨ point = .wake → (if s.owner x = none then
      some ((s.setOwner x (some w)).goto w (.queue m .test)) else none) = some s' →
      ∃ p q o, MacroStep P w (s.ready P w m) m point (s.queue x) (s.owner x) p q o ∧
        s' = ((s.setQueue x q).setOwner x o).goto w p := by
    intro hpoint hs
    split at hs
    · rename_i hfree
      refine ⟨_, _, _, by rw [hfree]; exact .lock hpoint, ?_⟩
      rw [LockedState.setQueue_self, Option.some.inj hs]
    · cases hs
  cases point with
  | lock => exact .inr (hlock (.inl rfl) hs)
  | wake => exact .inr (hlock (.inr rfl) hs)
  | test =>
    right
    obtain rfl := Option.some.inj hs
    cases hr : s.ready P w m with
    | true => exact ⟨_, _, _, .pass rfl, by rw [LockedState.setQueue_self, LockedState.setOwner_self]; rfl⟩
    | false => exact ⟨_, _, _, .fail rfl, by rw [LockedState.setQueue_self, LockedState.setOwner_self]; rfl⟩
  | sleep => exact .inr ⟨_, _, _, .sleep, by rw [LockedState.setQueue_self, Option.some.inj hs]⟩
  | blocked => cases hs
  | body =>
    right
    cases m with
    | get z =>
      simp only [LockedState.stepMacro] at hs
      cases hq : s.queue x with
      | cons a q =>
        rw [hq] at hs
        refine ⟨_, _, _, .take, ?_⟩
        rw [← Option.some.inj hs]
        exact congrArg _ (LockedState.setOwner_self x (s.setQueue x q)).symm
      | nil =>
        rw [hq] at hs
        refine ⟨_, _, _, .empty, ?_⟩
        rw [← hq, LockedState.setQueue_self, LockedState.setOwner_self, Option.some.inj hs]
    | write a =>
      refine ⟨_, _, _, .put, ?_⟩
      rw [← Option.some.inj hs]
      exact congrArg _ (LockedState.setOwner_self x (s.setQueue x _)).symm
  | notify => exact .inl ⟨rfl, (Option.some.inj hs).symm⟩
  | unlock => exact .inr ⟨_, _, _, .unlock, by rw [LockedState.setQueue_self, Option.some.inj hs]⟩

/-! ## Two workers and a queue -/

/-- The worker has the lock there. -/
@[grind =] def Point.holds : Point → Bool
  | test | sleep | body | notify | unlock => true
  | lock | blocked | wake => false

namespace Pc

/-- Where the worker is in `write_to_queue`. -/
@[grind =] def writeAt : Pc α → Option Point
  | queue (.write _) point => some point
  | _ => none

/-- Where it is in `get_context_from_queue`. -/
@[grind =] def readAt : Pc α → Option Point
  | queue (.get _) point => some point
  | _ => none

/-- It has found its queue empty and done. -/
@[grind =] def closed : Pc α → Bool
  | queue (.get none) .notify | queue (.get none) .unlock | setDone | notifyDone | returned => true
  | _ => false

theorem writeAt_eq_some {p : Pc α} {x : Point} (h : p.writeAt = some x) : ∃ a, p = .queue (.write a) x := by
  unfold writeAt at h
  split at h
  · rename_i a point
    exact ⟨a, by rw [Option.some.inj h]⟩
  · cases h

theorem readAt_eq_some {p : Pc α} {x : Point} (h : p.readAt = some x) : ∃ z, p = .queue (.get z) x := by
  unfold readAt at h
  split at h
  · rename_i z point
    exact ⟨z, by rw [Option.some.inj h]⟩
  · cases h

@[grind =] theorem closed_lock (m : QueueMacro α) : (queue m .lock).closed = false := by
  rcases m with (_ | a) | a
  · rfl
  · rfl
  · rfl

end Pc

/-- **A queue `v`, with its writer at `p` and its reader at `c`.** The lock is with the one that is where
one has it. Who is about to block, or blocked, has reason to be, or a notification is to come; and a
reader that is through has left the queue empty and done. -/
@[grind cases] structure LinkOK (cap v : ℕ) (p c : Pc α) (q : List α) (d : Bool) (o : Option ℕ) : Prop where
  writer : o = some v ↔ ∃ x, p.writeAt = some x ∧ x.holds = true
  reader : o = some (v + 1) ↔ ∃ x, c.readAt = some x ∧ x.holds = true
  owner : ∀ u, o = some u → u = v ∨ u = v + 1
  full : p.writeAt = some .sleep → cap ≤ q.length
  unheard : c.readAt = some .sleep → q ≠ [] ∨ d = true → p = .notifyDone
  filled : c.readAt = some .body → q ≠ [] ∨ d = true
  writeBlocked : p.writeAt = some .blocked → q.length < cap → c.readAt = some .notify
  readBlocked : c.readAt = some .blocked → q ≠ [] ∨ d = true → p.writeAt = some .notify ∨ p = .notifyDone
  flag : d = true ↔ p = .notifyDone ∨ p = .returned
  through : c.closed = true → q = [] ∧ d = true

namespace LinkOK

variable {v : ℕ} {p p' c c' : Pc α} {q q' : List α} {d : Bool} {o o' : Option ℕ} {a : α} {z : Option α} {x : Point}

/-- **A step of the writer** in `write_to_queue`. -/
theorem write_move (h : LinkOK P.cap v (.queue (.write a) x) c q d o)
    (hm : MacroStep P v (decide (q.length < P.cap)) (.write a) x q o p q' o') : LinkOK P.cap v p c q' d o' := by
  cases hm with
  | lock hx => constructor <;> grind
  | pass hr => constructor <;> grind
  | fail hr => constructor <;> grind
  | sleep => constructor <;> grind
  | put =>
    -- a reader that is blocked will be notified
    have hne : q ++ [a] ≠ [] := by simp
    generalize q ++ [a] = q' at hne ⊢
    constructor <;> grind
  | unlock =>
    have hafter : LockedState.after P v (.write a) = .produce ∨
        LockedState.after P v (.write a) = .queue (.get none) .lock := by
      unfold LockedState.after
      dsimp only
      split
      · exact .inl rfl
      · exact .inr rfl
    generalize LockedState.after P v (.write a) = p at hafter ⊢
    constructor <;> grind

/-- **A step of the reader** in `get_context_from_queue`. -/
theorem read_move (h : LinkOK P.cap v p (.queue (.get z) x) q d o)
    (hm : MacroStep P (v + 1) (!q.isEmpty || d) (.get z) x q o c q' o') : LinkOK P.cap v p c q' d o' := by
  cases hm with
  | lock hx => constructor <;> grind
  | pass hr =>
    have hready : q ≠ [] ∨ d = true := by simpa using hr
    constructor <;> grind
  | fail hr =>
    have hnot : q = [] ∧ d = false := by simpa using hr
    constructor <;> grind
  | sleep =>
    -- blocked with the flag set, it will still be notified
    constructor <;> grind
  | take =>
    -- a writer that is blocked will be notified
    constructor <;> grind
  | empty =>
    -- an empty queue lets the reader in only when it is done
    have hdone : d = true := by simpa using h.filled rfl
    constructor <;> grind
  | unlock =>
    have hafter : (∃ a, z = some a ∧ LockedState.after P (v + 1) (.get z) = .work a) ∨ z = none ∧
        (LockedState.after P (v + 1) (.get z) = .returned ∨ LockedState.after P (v + 1) (.get z) = .setDone) := by
      cases z with
      | some a => exact .inl ⟨a, rfl, rfl⟩
      | none =>
        refine .inr ⟨rfl, ?_⟩
        unfold LockedState.after
        dsimp only
        split
        · exact .inl rfl
        · exact .inr rfl
    generalize LockedState.after P (v + 1) (.get z) = c at hafter ⊢
    constructor <;> grind

variable {cap : ℕ}

/-! ### Notifications -/

theorem write_notify (h : LinkOK cap v (.queue (.write a) .notify) c q d o) (hc : c.readAt ≠ some .blocked) :
    LinkOK cap v (.queue (.write a) .unlock) c q d o := by
  constructor <;> grind

theorem read_notify (h : LinkOK cap v p (.queue (.get z) .notify) q d o) (hp : p.writeAt ≠ some .blocked) :
    LinkOK cap v p (.queue (.get z) .unlock) q d o := by
  constructor <;> grind

/-- The flag comes without the lock: the reader may be about to block. -/
theorem setDone (h : LinkOK cap v .setDone c q d o) : LinkOK cap v .notifyDone c q true o := by
  constructor <;> grind

/-- **It must not be** when it is notified. -/
theorem notifyDone (h : LinkOK cap v .notifyDone c q d o) (hb : c.readAt ≠ some .blocked)
    (hs : c.readAt ≠ some .sleep) : LinkOK cap v .returned c q d o := by
  constructor <;> grind

theorem wake_writer {m : QueueMacro α} (h : LinkOK cap v (.queue m .blocked) c q d o) :
    LinkOK cap v (.queue m .wake) c q d o := by
  cases m <;> constructor <;> grind

theorem wake_reader {m : QueueMacro α} (h : LinkOK cap v p (.queue m .blocked) q d o) :
    LinkOK cap v p (.queue m .wake) q d o := by
  cases m <;> constructor <;> grind

/-! ### Elsewhere -/

theorem writer_away (h : LinkOK cap v p c q d o) (hp : p.writeAt = none) (hn : p ≠ .notifyDone) (hr : p ≠ .returned)
    (hp' : p'.writeAt = none ∨ p'.writeAt = some .lock) (hn' : p' ≠ .notifyDone) (hr' : p' ≠ .returned) :
    LinkOK cap v p' c q d o := by
  constructor <;> grind

theorem reader_away (h : LinkOK cap v p c q d o) (hc : c.readAt = none)
    (hc' : c'.readAt = none ∨ c'.readAt = some .lock) (hz : c'.closed = true → c.closed = true) :
    LinkOK cap v p c' q d o := by
  constructor <;> grind

end LinkOK

end ChunkGrouping
