import ChunkGrouping.Model.Pipeline

/-!
# The workers at their locks (`pipeline_delta_compression.cpp`)

In `Model/Pipeline` a push and a pop are one step each. Here `write_to_queue`,
`get_context_from_queue` and `task_done` are the steps they are made of. Queue `v` has one
lock and one condition variable, used by worker `v`, which writes to it, and by worker
`v + 1`, which reads from it.

`wait(lock, pred)` is `while (!pred()) wait(lock)`: with the lock held the predicate is
tested (`test`); if it is false, the worker releases the lock and blocks in one step
(`sleep`); a notification lets it compete for the lock again (`wake`). `notify_all` wakes
who is blocked at that moment, and nobody wakes up by itself.

A worker whose own code fails ends the program: it is at `crashed`.
-/

namespace ChunkGrouping

open BoundedPipeline

/-- The macro a worker is in, with its local. -/
inductive QueueMacro (α : Type) where
  /-- `get_context_from_queue(TASK_NAME, context_)` -/
  | get (context : Option α)
  /-- `write_to_queue(TASK_NAME, context_)` -/
  | write (context : α)
deriving DecidableEq, Repr

/-- Where it is in the macro. -/
inductive Point where
  | lock
  | test
  | sleep
  | blocked
  | wake
  | body
  | notify
  | unlock
deriving DecidableEq, Repr

/-- Where a worker is. -/
inductive Pc (α : Type) where
  | produce
  | queue (m : QueueMacro α) (point : Point)
  | work (context : α)
  | setDone
  | notifyDone
  | returned
  | crashed
deriving DecidableEq, Repr

/-- The worker has returned. -/
def Pc.isReturned {α : Type} : Pc α → Bool
  | returned => true
  | _ => false

variable {σ : ℕ → Type} {α : Type}

/-- The queue a macro is about: a worker reads from the queue before it and writes to the one behind. -/
def QueueMacro.queueOf (w : ℕ) : QueueMacro α → ℕ
  | get _ => w - 1
  | write _ => w

@[simp] theorem QueueMacro.queueOf_get (v : ℕ) (z : Option α) : (get z).queueOf (v + 1) = v := rfl
@[simp] theorem QueueMacro.queueOf_write (w : ℕ) (a : α) : (write a).queueOf w = w := rfl

/-- The state of the workers. -/
structure LockedState (σ : ℕ → Type) (α : Type) where
  loc : ∀ w, σ w
  pc : ℕ → Pc α
  queue : ℕ → List α
  done : ℕ → Bool
  owner : ℕ → Option ℕ

namespace LockedState

/-- Worker `w` moves on to `p`. -/
def goto (w : ℕ) (p : Pc α) (s : LockedState σ α) : LockedState σ α := { s with pc := Function.update s.pc w p }

/-- Worker `w`'s own members. -/
def setLoc (w : ℕ) (l : σ w) (s : LockedState σ α) : LockedState σ α := { s with loc := Function.update s.loc w l }

/-- Queue `v`. -/
def setQueue (v : ℕ) (q : List α) (s : LockedState σ α) : LockedState σ α :=
  { s with queue := Function.update s.queue v q }

/-- `TASK_NAME##_done_ = true`. -/
def setDone (v : ℕ) (s : LockedState σ α) : LockedState σ α := { s with done := Function.update s.done v true }

/-- `TASK_NAME##_lock_`, by whom it is held. -/
def setOwner (v : ℕ) (o : Option ℕ) (s : LockedState σ α) : LockedState σ α :=
  { s with owner := Function.update s.owner v o }

/-- `TASK_NAME##_cv_.notify_all()`. -/
def notifyAll (v : ℕ) (s : LockedState σ α) : LockedState σ α :=
  { s with pc := fun w =>
    match s.pc w with
    | .queue m .blocked => if m.queueOf w = v then .queue m .wake else .queue m .blocked
    | p => p }

@[simp] theorem goto_pc_self (w : ℕ) (p : Pc α) (s : LockedState σ α) : (s.goto w p).pc w = p :=
  Function.update_self ..
@[simp] theorem goto_pc_of_ne {u w : ℕ} (h : u ≠ w) (p : Pc α) (s : LockedState σ α) : (s.goto w p).pc u = s.pc u :=
  Function.update_of_ne h ..
@[simp] theorem goto_loc (w : ℕ) (p : Pc α) (s : LockedState σ α) : (s.goto w p).loc = s.loc := rfl
@[simp] theorem goto_queue (w : ℕ) (p : Pc α) (s : LockedState σ α) : (s.goto w p).queue = s.queue := rfl
@[simp] theorem goto_done (w : ℕ) (p : Pc α) (s : LockedState σ α) : (s.goto w p).done = s.done := rfl
@[simp] theorem goto_owner (w : ℕ) (p : Pc α) (s : LockedState σ α) : (s.goto w p).owner = s.owner := rfl

@[simp] theorem setQueue_queue_self (v : ℕ) (q : List α) (s : LockedState σ α) : (s.setQueue v q).queue v = q :=
  Function.update_self ..
@[simp] theorem setQueue_queue_of_ne {u v : ℕ} (h : u ≠ v) (q : List α) (s : LockedState σ α) :
    (s.setQueue v q).queue u = s.queue u := Function.update_of_ne h ..
@[simp] theorem setQueue_pc (v : ℕ) (q : List α) (s : LockedState σ α) : (s.setQueue v q).pc = s.pc := rfl
@[simp] theorem setQueue_done (v : ℕ) (q : List α) (s : LockedState σ α) : (s.setQueue v q).done = s.done := rfl
@[simp] theorem setQueue_owner (v : ℕ) (q : List α) (s : LockedState σ α) : (s.setQueue v q).owner = s.owner := rfl

@[simp] theorem setDone_done_self (v : ℕ) (s : LockedState σ α) : (s.setDone v).done v = true :=
  Function.update_self ..
@[simp] theorem setDone_done_of_ne {u v : ℕ} (h : u ≠ v) (s : LockedState σ α) : (s.setDone v).done u = s.done u :=
  Function.update_of_ne h ..
@[simp] theorem setDone_pc (v : ℕ) (s : LockedState σ α) : (s.setDone v).pc = s.pc := rfl
@[simp] theorem setDone_queue (v : ℕ) (s : LockedState σ α) : (s.setDone v).queue = s.queue := rfl
@[simp] theorem setDone_owner (v : ℕ) (s : LockedState σ α) : (s.setDone v).owner = s.owner := rfl

@[simp] theorem setOwner_owner_self (v : ℕ) (o : Option ℕ) (s : LockedState σ α) : (s.setOwner v o).owner v = o :=
  Function.update_self ..
@[simp] theorem setOwner_owner_of_ne {u v : ℕ} (h : u ≠ v) (o : Option ℕ) (s : LockedState σ α) :
    (s.setOwner v o).owner u = s.owner u := Function.update_of_ne h ..
@[simp] theorem setOwner_pc (v : ℕ) (o : Option ℕ) (s : LockedState σ α) : (s.setOwner v o).pc = s.pc := rfl
@[simp] theorem setOwner_queue (v : ℕ) (o : Option ℕ) (s : LockedState σ α) : (s.setOwner v o).queue = s.queue := rfl
@[simp] theorem setOwner_done (v : ℕ) (o : Option ℕ) (s : LockedState σ α) : (s.setOwner v o).done = s.done := rfl

@[simp] theorem setLoc_pc (w : ℕ) (l : σ w) (s : LockedState σ α) : (s.setLoc w l).pc = s.pc := rfl
@[simp] theorem setLoc_queue (w : ℕ) (l : σ w) (s : LockedState σ α) : (s.setLoc w l).queue = s.queue := rfl
@[simp] theorem setLoc_done (w : ℕ) (l : σ w) (s : LockedState σ α) : (s.setLoc w l).done = s.done := rfl
@[simp] theorem setLoc_owner (w : ℕ) (l : σ w) (s : LockedState σ α) : (s.setLoc w l).owner = s.owner := rfl

@[simp] theorem notifyAll_queue (v : ℕ) (s : LockedState σ α) : (s.notifyAll v).queue = s.queue := rfl
@[simp] theorem notifyAll_done (v : ℕ) (s : LockedState σ α) : (s.notifyAll v).done = s.done := rfl
@[simp] theorem notifyAll_owner (v : ℕ) (s : LockedState σ α) : (s.notifyAll v).owner = s.owner := rfl

theorem setLoc_self (w : ℕ) (s : LockedState σ α) : s.setLoc w (s.loc w) = s := by simp [setLoc]
theorem setQueue_self (v : ℕ) (s : LockedState σ α) : s.setQueue v (s.queue v) = s := by simp [setQueue]
theorem setOwner_self (v : ℕ) (s : LockedState σ α) : s.setOwner v (s.owner v) = s := by simp [setOwner]

variable (P : Program σ α)

/-- The predicate given to `wait`. -/
def ready (w : ℕ) (m : QueueMacro α) (s : LockedState σ α) : Bool :=
  match m with
  | .get _ => !(s.queue (m.queueOf w)).isEmpty || s.done (m.queueOf w)
  | .write _ => (s.queue (m.queueOf w)).length < P.cap

@[simp] theorem ready_get (v : ℕ) (z : Option α) (s : LockedState σ α) :
    s.ready P (v + 1) (.get z) = (!(s.queue v).isEmpty || s.done v) := rfl
@[simp] theorem ready_write (w : ℕ) (a : α) (s : LockedState σ α) :
    s.ready P w (.write a) = decide ((s.queue w).length < P.cap) := rfl

/-- Where a worker goes behind a macro: on with its context, or out of its loop, or back to its start. -/
def after (w : ℕ) : QueueMacro α → Pc α
  | .get (some context) => .work context
  | .get none => if w = P.last then .returned else .setDone
  | .write _ => if w = 0 then .produce else .queue (.get none) .lock

/-- A step in a macro. -/
def stepMacro (w : ℕ) (m : QueueMacro α) (s : LockedState σ α) : Point → Option (LockedState σ α)
  | .lock | .wake =>
    if s.owner (m.queueOf w) = none then
      some ((s.setOwner (m.queueOf w) (some w)).goto w (.queue m .test))
    else none
  | .test => some (s.goto w (.queue m (if s.ready P w m then .body else .sleep)))
  | .sleep => some ((s.setOwner (m.queueOf w) none).goto w (.queue m .blocked))
  | .blocked => none
  | .body =>
    match m with
    | .get _ =>
      match s.queue (m.queueOf w) with
      | context :: q => some ((s.setQueue (m.queueOf w) q).goto w (.queue (.get (some context)) .notify))
      | [] => some (s.goto w (.queue m .notify))
    | .write context =>
      some ((s.setQueue (m.queueOf w) (s.queue (m.queueOf w) ++ [context])).goto w (.queue m .notify))
  | .notify => some ((s.notifyAll (m.queueOf w)).goto w (.queue m .unlock))
  | .unlock => some ((s.setOwner (m.queueOf w) none).goto w (after P w m))

/-- **A step of worker `w`**, if it can step. -/
def step (w : ℕ) (s : LockedState σ α) : Option (LockedState σ α) :=
  match s.pc w with
  | .produce =>
    match w with
    | 0 =>
      match P.produce (s.loc 0) with
      | some (some context, l) => some ((s.setLoc 0 l).goto 0 (.queue (.write context) .lock))
      | some (none, l) => some ((s.setLoc 0 l).goto 0 .setDone)
      | none => some (s.goto 0 .crashed)
    | _ + 1 => none
  | .queue m point => s.stepMacro P w m point
  | .work context =>
    match P.work w (s.loc w) context with
    | some (context, l) =>
      some ((s.setLoc w l).goto w (if w = P.last then .queue (.get none) .lock else .queue (.write context) .lock))
    | none => some (s.goto w .crashed)
  | .setDone => some ((s.setDone w).goto w .notifyDone)
  | .notifyDone => some ((s.notifyAll w).goto w .returned)
  | .returned => none
  | .crashed => none

/-- The workers start, all flags are off. -/
def start (s : LockedState σ α) : LockedState σ α :=
  { s with
    pc := fun w => if w = 0 then .produce else if w ≤ P.last then .queue (.get none) .lock else .returned
    done := fun _ => false }

/-- A worker has a `notify_all` on the condition variable of queue `v` to execute. -/
def Notifying (v : ℕ) (s : LockedState σ α) : Prop :=
  ∃ w ≤ P.last, (∃ m, s.pc w = .queue m .notify ∧ m.queueOf w = v) ∨ (s.pc w = .notifyDone ∧ w = v)

/-- **Stuck**: the program has not crashed, some worker has not returned, and none can step. -/
structure Stuck (s : LockedState σ α) : Prop where
  running : ∀ w ≤ P.last, s.pc w ≠ .crashed
  unreturned : ∃ w ≤ P.last, s.pc w ≠ .returned
  halted : ∀ w ≤ P.last, s.step P w = none

end LockedState

/-! ## `AddFile` and `main` -/

/-- `main` adding files: those it still has, and whether it is adding one. -/
structure LockedRun (κ ι φ : Type) where
  pipe : LockedState (WorkerState κ ι) (Context φ)
  files : List (String × FileContent)
  adding : Bool := false

namespace LockedRun

open PipelineRun

variable {κ ι φ : Type}

/-- `PipelineDeltaCompression()`. -/
def new (k : κ) (index : ι) (cacheSize : ℕ) (files : List (String × FileContent)) : LockedRun κ ι φ where
  pipe := {
    loc := memberStates k { dedup := {}, index, writer := { storage := .new cacheSize } }
    pc := fun _ => .returned
    queue := fun _ => []
    done := fun _ => false
    owner := fun _ => none }
  files

variable [Chunker κ] [Index ι φ] [Inhabited φ] (feature : Chunk → φ)

/-- A step of `main`, which starts the workers of a file and joins them, or of a worker. -/
def step : Actor → LockedRun κ ι φ → Option (LockedRun κ ι φ)
  | .worker w, r => (r.pipe.step (workers feature) w).map fun pipe => { r with pipe }
  | .main, r =>
    if r.adding then
      if (List.range 5).all fun w => (r.pipe.pc w).isReturned then some { r with adding := false } else none
    else
      match r.files with
      | [] => none
      | (_, content) :: files =>
        let k := (Chunker.reinitWithFile (κ := κ) content (r.pipe.loc 0)).2
        some { pipe := (r.pipe.setLoc 0 k).start (workers feature), files, adding := true }

/-- The state after a schedule. -/
def exec (schedule : List Actor) (r : LockedRun κ ι φ) : Option (LockedRun κ ι φ) :=
  schedule.foldlM (fun r a => step feature a r) r

/-- A run whose steps all meet a condition on who steps in which state. -/
inductive Runs (Meets : LockedRun κ ι φ → Actor → Prop) : LockedRun κ ι φ → LockedRun κ ι φ → Prop
  | start (r : LockedRun κ ι φ) : Runs Meets r r
  | step {r r₁ r₂ : LockedRun κ ι φ} {a : Actor} : Runs Meets r r₁ → Meets r₁ a → step feature a r₁ = some r₂ →
      Runs Meets r r₂

/-- **The notification is heard**: when a worker executes the `notify_all` of its `task_done`, the next
worker is not between a test that failed and blocking. -/
def NotifyHeard (r : LockedRun κ ι φ) (a : Actor) : Prop :=
  ∀ v, a = .worker v → r.pipe.pc v = .notifyDone → ∀ context, r.pipe.pc (v + 1) ≠ .queue (.get context) .sleep

end LockedRun

end ChunkGrouping
