import ChunkGrouping.Proof.PipelineRefine

/-!
# Runs of the pipeline end

Every step at the locks takes something off a cost: a notification may wake all workers, which then
test in vain and block again, so it is worth three steps of each; an item in a queue is worth what
the workers behind still do with it; and a chunk that has yet to be cut is worth more than what is
done with it in the end. So no schedule is longer than the cost at the start.

* `MacroStep.cost_lt`: a step in a macro, with the queue it is about.
* `LockedState.cost_step`: a step of a worker.
* `locks_end`: runs are bounded, and one in which each notification is heard ends only when all
  files have been added, or with a crash.
-/

namespace ChunkGrouping

open BoundedPipeline PipelineRun

variable {σ : ℕ → Type} {α : Type} {P : Program σ α} {s s' : LockedState σ α} {v w x : ℕ}

/-! ## What a worker still costs -/

section Costs

variable (last : ℕ)

/-- What the workers do when all of them are woken for nothing: each wakes up, tests and blocks. -/
def wakeCost : ℕ := 3 * (last + 1)

/-- From a point of a macro to its end. -/
def Point.cost : Point → ℕ
  | unlock => 1
  | notify => wakeCost last + 2
  | body | blocked => wakeCost last + 3
  | sleep => wakeCost last + 4
  | test => wakeCost last + 5
  | lock | wake => wakeCost last + 6

/-- A macro. -/
def macroCost : ℕ := wakeCost last + 6

/-- `task_done`. -/
def doneCost : ℕ := wakeCost last + 2

/-- An item in the hands of worker `w`: its work, and for each worker behind a push, a pop and its work. -/
def workCost (w : ℕ) : ℕ := 1 + (last - w) * (2 * macroCost last + 1)

/-- An item in queue `v`. -/
def queueCost (v : ℕ) : ℕ := workCost last (v + 1) + macroCost last

/-- A worker at the start of its loop: one more macro, and `task_done`. -/
def loopCost (w : ℕ) : ℕ := if w = 0 then doneCost last + 1 else macroCost last + doneCost last

/-- A chunk that has yet to be cut. -/
def chunkCost : ℕ := macroCost last + queueCost last 0 + 1

/-- The item of `write_to_queue` has yet to be pushed. -/
def Point.pending : Point → Bool
  | notify | unlock => false
  | lock | test | sleep | blocked | wake | body => true

/-- **What worker `w` still costs.** -/
def Pc.cost (w : ℕ) : Pc α → ℕ
  | produce => loopCost last 0
  | queue (.get none) x => x.cost last + doneCost last
  | queue (.get (some _)) x => x.cost last + (workCost last w + loopCost last w)
  | queue (.write _) x => x.cost last + ((if x.pending then queueCost last w else 0) + loopCost last w)
  | work _ => workCost last w + loopCost last w
  | setDone => doneCost last
  | notifyDone => wakeCost last + 1
  | returned | crashed => 0

end Costs

theorem loopCost_of_pos {last : ℕ} (h : 0 < w) : loopCost last w = macroCost last + doneCost last :=
  if_neg (by omega)

theorem workCost_of_lt {last : ℕ} (h : w < last) : workCost last w = 1 + macroCost last + queueCost last w := by
  obtain ⟨n, rfl⟩ : ∃ n, last = w + 1 + n := ⟨last - (w + 1), by omega⟩
  unfold queueCost workCost
  rw [show w + 1 + n - w = n + 1 by omega, show w + 1 + n - (w + 1) = n by omega]
  ring

/-- **A step in a macro** costs something, the queue taken into account. -/
theorem MacroStep.cost_lt {ready : Bool} {m : QueueMacro α} {point : Point} {p : Pc α} {q q' : List α}
    {o o' : Option ℕ} (h : MacroStep P w ready m point q o p q' o') (hfits : (Pc.queue m point).Fits P.last w)
    (hm : ∀ a, m = .get (some a) → point = .notify ∨ point = .unlock) :
    p.cost P.last w + queueCost P.last (m.queueOf w) * q'.length <
      (Pc.queue m point : Pc α).cost P.last w + queueCost P.last (m.queueOf w) * q.length := by
  cases h with
  | lock hl =>
    rcases m with (_ | a) | a <;> rcases hl with rfl | rfl <;> simp [Pc.cost, Point.cost, Point.pending]
  | pass | fail | sleep =>
    rcases m with (_ | a) | a <;> simp [Pc.cost, Point.cost, Point.pending]
  | @take z a q =>
    obtain rfl : z = none := by
      cases z with
      | none => rfl
      | some b => rcases hm b rfl with hx | hx <;> cases hx
    obtain ⟨v, rfl⟩ : ∃ v, w = v + 1 := ⟨w - 1, by have := hfits.1; omega⟩
    rw [QueueMacro.queueOf_get, List.length_cons, Nat.mul_succ]
    simp only [Pc.cost, Point.cost, loopCost_of_pos (Nat.succ_pos v)]
    rw [show queueCost P.last v = workCost P.last (v + 1) + macroCost P.last from rfl]
    omega
  | @empty z =>
    obtain rfl : z = none := by
      cases z with
      | none => rfl
      | some b => rcases hm b rfl with hx | hx <;> cases hx
    simp [Pc.cost, Point.cost]
  | put =>
    rw [QueueMacro.queueOf_write, List.length_append, List.length_singleton, Nat.mul_succ]
    simp only [Pc.cost, Point.cost, Point.pending, if_true]
    simp only [Bool.false_eq_true, if_false]
    omega
  | unlock =>
    rcases m with (_ | a) | a <;> unfold LockedState.after <;> dsimp only
    · split <;> simp [Pc.cost, Point.cost]
    · simp [Pc.cost, Point.cost]
    · split
      · rename_i h0
        simp [Pc.cost, Point.cost, Point.pending, h0]
      · rename_i h0
        simp only [Pc.cost, Point.cost, Point.pending, loopCost_of_pos (Nat.pos_of_ne_zero h0), macroCost]
        simp only [Bool.false_eq_true, if_false]
        omega

/-! ## What all of them cost -/

open Finset

/-- **What a state still costs**, where `rank` bounds the chunks that worker 0 can still make. -/
def LockedState.cost (P : Program σ α) (rank : σ 0 → ℕ) (s : LockedState σ α) : ℕ :=
  ∑ w ∈ range (P.last + 1), (s.pc w).cost P.last w + ∑ v ∈ range P.last, queueCost P.last v * (s.queue v).length +
    chunkCost P.last * rank (s.loc 0)

/-- A sum in which one term changes. -/
theorem sum_range_of_ne {n : ℕ} {f g : ℕ → ℕ} (hw : w < n) (h : ∀ u, u ≠ w → g u = f u) :
    ∑ u ∈ range n, g u + f w = ∑ u ∈ range n, f u + g w := by
  have hmem : w ∈ range n := mem_range.2 hw
  have hrest : ∑ u ∈ (range n).erase w, g u = ∑ u ∈ (range n).erase w, f u :=
    sum_congr rfl fun u hu => h u (ne_of_mem_erase hu)
  rw [← add_sum_erase _ g hmem, ← add_sum_erase _ f hmem, hrest]
  omega

/-- **Only worker `w` moves on**, and one queue changes. -/
theorem LockedState.cost_lt_of_move {rank : σ 0 → ℕ} (hw : w ≤ P.last) (hx : x < P.last)
    (hpc : ∀ u, u ≠ w → s'.pc u = s.pc u) (hqueue : ∀ v, v ≠ x → s'.queue v = s.queue v)
    (h : (s'.pc w).cost P.last w + queueCost P.last x * (s'.queue x).length +
        chunkCost P.last * rank (s'.loc 0) <
      (s.pc w).cost P.last w + queueCost P.last x * (s.queue x).length + chunkCost P.last * rank (s.loc 0)) :
    s'.cost P rank < s.cost P rank := by
  have hpcs := sum_range_of_ne (f := fun u => (s.pc u).cost P.last u) (g := fun u => (s'.pc u).cost P.last u)
    (Nat.lt_add_one_of_le hw) fun u hu => by rw [hpc u hu]
  have hqueues := sum_range_of_ne (f := fun v => queueCost P.last v * (s.queue v).length)
    (g := fun v => queueCost P.last v * (s'.queue v).length) hx fun v hv => by rw [hqueue v hv]
  unfold LockedState.cost
  omega

/-- Worker `w` moves on, and nothing else changes. -/
theorem LockedState.cost_goto (rank : σ 0 → ℕ) (hw : w ≤ P.last) (p : Pc α) :
    (s.goto w p).cost P rank + (s.pc w).cost P.last w = s.cost P rank + p.cost P.last w := by
  have hpcs := sum_range_of_ne (f := fun u => (s.pc u).cost P.last u) (g := fun u => ((s.goto w p).pc u).cost P.last u)
    (Nat.lt_add_one_of_le hw) fun u hu => by rw [LockedState.goto_pc_of_ne hu]
  simp only [LockedState.goto_pc_self] at hpcs
  unfold LockedState.cost
  rw [LockedState.goto_queue, LockedState.goto_loc]
  omega

/-- **All workers may be woken.** -/
theorem LockedState.cost_notifyAll (rank : σ 0 → ℕ) (s : LockedState σ α) (x : ℕ) :
    (s.notifyAll x).cost P rank ≤ s.cost P rank + wakeCost P.last := by
  have hone : ∀ u ∈ range (P.last + 1), ((s.notifyAll x).pc u).cost P.last u ≤ (s.pc u).cost P.last u + 3 := by
    intro u _
    rcases pc_notifyAll x u s with ⟨m, -, hm, hw⟩ | ⟨-, hw⟩
    · rw [hw, hm]
      rcases m with (_ | a) | a <;> simp only [Pc.cost, Point.cost, Point.pending] <;> omega
    · rw [hw]
      omega
  have hsum := sum_le_sum hone
  rw [sum_add_distrib, sum_const, card_range, smul_eq_mul] at hsum
  have hloc : (s.notifyAll x).loc = s.loc := rfl
  unfold LockedState.cost wakeCost
  rw [LockedState.notifyAll_queue, hloc]
  omega

/-- **Worker 0 makes no more chunks than `rank` says**, in the states it can be in. -/
structure Shortens (P : Program σ α) (ok : σ 0 → Prop) (rank : σ 0 → ℕ) : Prop where
  keeps : ∀ {l z l'}, ok l → P.produce l = some (z, l') → ok l'
  made : ∀ {l a l'}, ok l → P.produce l = some (some a, l') → rank l' < rank l
  exhausted : ∀ {l l'}, ok l → P.produce l = some (none, l') → rank l' ≤ rank l

/-- A macro is of a worker and on a queue between two of them. -/
theorem Pc.Fits.place {m : QueueMacro α} {point : Point} {last : ℕ} (h : (Pc.queue m point).Fits last w) :
    w ≤ last ∧ m.queueOf w < last := by
  cases m with
  | get z =>
    obtain ⟨h0, hle⟩ : 0 < w ∧ w ≤ last := h
    exact ⟨hle, show w - 1 < last by omega⟩
  | write a => exact ⟨le_of_lt h, h⟩

/-- **Worker 0 makes something**: what it goes on to must cost less than the chunks it used up. -/
theorem LockedState.cost_produced (rank : σ 0 → ℕ) (hlast : 0 < P.last) (hp : s.pc 0 = .produce) {l : σ 0} {p : Pc α}
    (h : p.cost P.last 0 + chunkCost P.last * rank l < loopCost P.last 0 + chunkCost P.last * rank (s.loc 0)) :
    ((s.setLoc 0 l).goto 0 p).cost P rank < s.cost P rank ∧ ((s.setLoc 0 l).goto 0 p).loc 0 = l := by
  have hloc : ((s.setLoc 0 l).goto 0 p).loc 0 = l := by simp [LockedState.setLoc]
  refine ⟨LockedState.cost_lt_of_move (Nat.zero_le _) hlast (fun _ hu => LockedState.goto_pc_of_ne hu ..)
    (fun _ _ => rfl) ?_, hloc⟩
  have hproduce : (Pc.produce : Pc α).cost P.last 0 = loopCost P.last 0 := rfl
  rw [hloc, LockedState.goto_pc_self, hp, LockedState.goto_queue, LockedState.setLoc_queue, hproduce]
  omega

/-- **Worker `w` notifies** and goes on: waking the others is paid for. -/
theorem LockedState.cost_notify_lt (rank : σ 0 → ℕ) (hw : w ≤ P.last) (x : ℕ) {p : Pc α}
    (hblocked : ∀ m, s.pc w ≠ .queue m .blocked)
    (hcost : (s.pc w).cost P.last w = p.cost P.last w + (wakeCost P.last + 1)) :
    ((s.notifyAll x).goto w p).cost P rank < s.cost P rank := by
  have hwake := LockedState.cost_notifyAll (P := P) rank s x
  have hgoto := LockedState.cost_goto rank (s := s.notifyAll x) hw p
  rw [pc_notifyAll_of_ne hblocked, hcost] at hgoto
  omega

/-- **A step of a worker** costs something. -/
theorem LockedState.cost_step {ok : σ 0 → Prop} {rank : σ 0 → ℕ} (hP : Shortens P ok rank) (hlast : 0 < P.last)
    (hc : s.Coherent P) (hok : ok (s.loc 0)) (hs : s.step P w = some s') :
    s'.cost P rank < s.cost P rank ∧ ok (s'.loc 0) := by
  have hw := hc w
  cases LockedState.step_cases hs with
  | @made a l hp hm =>
    have hmul : chunkCost P.last * rank l + chunkCost P.last ≤ chunkCost P.last * rank (s.loc 0) := by
      rw [← Nat.mul_succ]
      exact Nat.mul_le_mul_left _ (hP.made hok hm)
    have hchunk : chunkCost P.last = macroCost P.last + queueCost P.last 0 + 1 := rfl
    obtain ⟨hlt, hloc⟩ := LockedState.cost_produced rank hlast hp (l := l) (p := .queue (.write a) .lock) (by
      simp only [Pc.cost, Point.cost, Point.pending, if_true]
      rw [show wakeCost P.last + 6 = macroCost P.last from rfl]
      omega)
    exact ⟨hlt, hloc ▸ hP.keeps hok hm⟩
  | @exhausted l hp hm =>
    have hle := Nat.mul_le_mul_left (chunkCost P.last) (hP.exhausted hok hm)
    obtain ⟨hlt, hloc⟩ := LockedState.cost_produced rank hlast hp (l := l) (p := .setDone) (by
      simp only [Pc.cost, loopCost, if_true]
      omega)
    exact ⟨hlt, hloc ▸ hP.keeps hok hm⟩
  | @worked _ a b l hp hm =>
    rw [hp] at hw
    obtain ⟨h0, hle⟩ : 0 < w ∧ w ≤ P.last := hw.fits
    have hloc : ∀ p : Pc α, ((s.setLoc w l).goto w p).loc 0 = s.loc 0 := fun p =>
      Function.update_of_ne (by omega) ..
    refine ⟨LockedState.cost_lt_of_move hle hlast (fun _ hu => LockedState.goto_pc_of_ne hu ..)
      (fun _ _ => rfl) ?_, hloc _ ▸ hok⟩
    rw [hloc, LockedState.goto_pc_self, hp, LockedState.goto_queue, LockedState.setLoc_queue]
    -- the last worker fetches again, the others push
    split
    · simp only [Pc.cost, Point.cost, loopCost_of_pos h0, workCost, macroCost]
      omega
    · rename_i hne
      have hcost := workCost_of_lt (show w < P.last by omega)
      simp only [Pc.cost, Point.cost, Point.pending, if_true, hcost]
      rw [show wakeCost P.last + 6 = macroCost P.last from rfl]
      omega
  | failedToMake hp hm =>
    have hgoto := LockedState.cost_goto rank (s := s) (Nat.zero_le P.last) .crashed
    rw [hp] at hgoto
    simp only [Pc.cost, loopCost, if_true] at hgoto
    exact ⟨by omega, hok⟩
  | @failedToWork _ a hp hm =>
    rw [hp] at hw
    have hgoto := LockedState.cost_goto rank (s := s) hw.fits.2 .crashed
    rw [hp] at hgoto
    simp only [Pc.cost, workCost] at hgoto
    exact ⟨by omega, hok⟩
  | @moved _ m point p q o hp hm =>
    rw [hp] at hw
    obtain ⟨hle, hqueue⟩ := hw.fits.place
    refine ⟨LockedState.cost_lt_of_move hle hqueue (fun _ hu => LockedState.goto_pc_of_ne hu ..)
      (fun _ hv => LockedState.setQueue_queue_of_ne hv ..) ?_, hok⟩
    have hlt := hm.cost_lt hw.fits fun a ha => hw.fresh a point (ha ▸ rfl)
    rw [LockedState.goto_pc_self, hp, LockedState.goto_queue, LockedState.setOwner_queue,
      LockedState.setQueue_queue_self]
    exact Nat.add_lt_add_right hlt _
  | @notified _ m hp =>
    rw [hp] at hw
    have hfall : (Pc.queue m .notify : Pc α).cost P.last w = (Pc.queue m .unlock : Pc α).cost P.last w +
        (wakeCost P.last + 1) := by
      rcases m with (_ | a) | a <;> simp only [Pc.cost, Point.cost, Point.pending, Bool.false_eq_true, if_false] <;>
        omega
    exact ⟨LockedState.cost_notify_lt rank hw.fits.place.1 _ (by simp [hp]) (hp ▸ hfall), hok⟩
  | marked hp =>
    rw [hp] at hw
    have hgoto := LockedState.cost_goto rank (s := s.setDone w) (le_of_lt hw.fits) .notifyDone
    rw [LockedState.setDone_pc, hp] at hgoto
    have hsame : (s.setDone w).cost P rank = s.cost P rank := rfl
    simp only [Pc.cost, doneCost] at hgoto
    exact ⟨by omega, hok⟩
  | left hp =>
    rw [hp] at hw
    have hfall : (Pc.notifyDone : Pc α).cost P.last w = (Pc.returned : Pc α).cost P.last w + (wakeCost P.last + 1) :=
      (Nat.zero_add _).symm
    exact ⟨LockedState.cost_notify_lt rank (le_of_lt hw.fits) _ (by simp [hp]) (hp ▸ hfall), hok⟩

/-- **The workers start.** -/
theorem LockedState.cost_start (rank : σ 0 → ℕ) (s : LockedState σ α) :
    (s.start P).cost P rank ≤ s.cost P rank + ∑ w ∈ range (P.last + 1), loopCost P.last w := by
  have hpcs : ∑ w ∈ range (P.last + 1), ((s.start P).pc w).cost P.last w =
      ∑ w ∈ range (P.last + 1), loopCost P.last w := by
    refine sum_congr rfl fun w hw => ?_
    have hle : w ≤ P.last := Nat.le_of_lt_succ (mem_range.1 hw)
    simp only [LockedState.start]
    by_cases h0 : w = 0
    · simp [h0, Pc.cost]
    · simp [h0, hle, Pc.cost, Point.cost, loopCost, macroCost]
  have hloc : (s.start P).loc = s.loc := rfl
  have hqueue : (s.start P).queue = s.queue := rfl
  unfold LockedState.cost
  rw [hpcs, hloc, hqueue]
  omega

/-- Worker 0 gets more to do. -/
theorem LockedState.cost_setLoc (rank : σ 0 → ℕ) {l : σ 0} {n : ℕ} (h : rank l ≤ rank (s.loc 0) + n) :
    (s.setLoc 0 l).cost P rank ≤ s.cost P rank + chunkCost P.last * n := by
  have hloc : (s.setLoc 0 l).loc 0 = l := by simp [LockedState.setLoc]
  have hmul := Nat.mul_le_mul_left (chunkCost P.last) h
  rw [Nat.mul_add] at hmul
  unfold LockedState.cost
  rw [hloc, LockedState.setLoc_pc, LockedState.setLoc_queue]
  omega

/-! ## Runs -/

/-- **A chunker that takes something off `remaining_file_len` with every chunk**, in the states it can be in. -/
structure ChunkerShortens (κ : Type) [Chunker κ] (ok : κ → Prop) : Prop where
  reinit : ∀ {k : κ} (content : FileContent), ok k → ok (Chunker.reinitWithFile content k).2 ∧
    Chunker.remainingFileLen (Chunker.reinitWithFile content k).2 ≤
      Chunker.remainingFileLen k + (MappedFile.open content).len
  keeps : ∀ {k : κ} {c k'}, ok k → Chunker.getNextChunk k = some (c, k') → ok k'
  made : ∀ {k : κ} {c k'}, ok k → Chunker.getNextChunk k = some (some c, k') →
    Chunker.remainingFileLen k' < Chunker.remainingFileLen k
  exhausted : ∀ {k : κ} {k'}, ok k → Chunker.getNextChunk k = some (none, k') →
    Chunker.remainingFileLen k' ≤ Chunker.remainingFileLen k

namespace LockedRun

variable {κ ι φ : Type} [Chunker κ] [Index ι φ] [Inhabited φ] {feature : Chunk → φ} {r r' : LockedRun κ ι φ}
  {ok : κ → Prop}

theorem shortens_workers (hκ : ChunkerShortens κ ok) (feature : Chunk → φ) :
    Shortens (workers (κ := κ) (ι := ι) feature) ok (Chunker.remainingFileLen (κ := κ)) where
  keeps := by
    intro l z l' h hm
    obtain ⟨⟨c, k⟩, hc, he⟩ := Option.map_eq_some_iff.1 hm
    obtain ⟨-, rfl⟩ := Prod.mk.inj he
    exact hκ.keeps h hc
  made := by
    intro l a l' h hm
    obtain ⟨⟨c, k⟩, hc, he⟩ := Option.map_eq_some_iff.1 hm
    obtain ⟨hsome, rfl⟩ := Prod.mk.inj he
    obtain ⟨c, rfl, -⟩ := Option.map_eq_some_iff.1 hsome
    exact hκ.made h hc
  exhausted := by
    intro l l' h hm
    obtain ⟨⟨c, k⟩, hc, he⟩ := Option.map_eq_some_iff.1 hm
    obtain ⟨hnone, rfl⟩ := Prod.mk.inj he
    obtain rfl := Option.map_eq_none_iff.1 hnone
    exact hκ.exhausted h hc

/-- A file that has yet to be added. -/
def fileCost (file : String × FileContent) : ℕ :=
  2 + ∑ w ∈ range 5, loopCost 4 w + chunkCost 4 * (MappedFile.open file.2).len

/-- **What a run still costs.** -/
def cost (feature : Chunk → φ) (r : LockedRun κ ι φ) : ℕ :=
  r.pipe.cost (workers feature) (Chunker.remainingFileLen (κ := κ)) + (if r.adding then 1 else 0) +
    (r.files.map fileCost).sum

/-- The states of a run. -/
structure Going (feature : Chunk → φ) (ok : κ → Prop) (r : LockedRun κ ι φ) : Prop where
  coherent : r.pipe.Coherent (workers feature)
  chunker : ok (r.pipe.loc 0)

/-- **A step** of a worker or of `main` costs something. -/
theorem Going.step (hκ : ChunkerShortens κ ok) (h : Going feature ok r) {a : Actor}
    (hs : LockedRun.step feature a r = some r') : Going feature ok r' ∧ r'.cost feature < r.cost feature := by
  cases a with
  | worker w =>
    obtain ⟨pipe, hpipe, rfl⟩ := Option.map_eq_some_iff.1 hs
    obtain ⟨hlt, hok⟩ := LockedState.cost_step (shortens_workers hκ feature) (Nat.zero_lt_succ 3) h.coherent h.chunker
      hpipe
    refine ⟨⟨h.coherent.step (Nat.zero_lt_succ 3) hpipe, hok⟩, ?_⟩
    unfold cost
    dsimp only
    omega
  | main =>
    rw [LockedRun.step] at hs
    split at hs
    · rename_i hadd
      split at hs
      · obtain rfl := Option.some.inj hs
        refine ⟨⟨h.coherent, h.chunker⟩, ?_⟩
        unfold cost
        dsimp only
        rw [if_pos hadd, if_neg (by simp)]
        omega
      · cases hs
    · rename_i hadd
      cases hfiles : r.files with
      | nil => rw [hfiles] at hs; cases hs
      | cons file files =>
        obtain ⟨name, content⟩ := file
        rw [hfiles] at hs
        obtain rfl := Option.some.inj hs
        obtain ⟨hok, hle⟩ := hκ.reinit content h.chunker
        refine ⟨⟨LockedState.coherent_start _, ?_⟩, ?_⟩
        · show ok (Function.update r.pipe.loc 0 _ 0)
          rw [Function.update_self]
          exact hok
        · have hset := LockedState.cost_setLoc (P := workers feature) (s := r.pipe)
            (Chunker.remainingFileLen (κ := κ)) hle
          have hstart := LockedState.cost_start (P := workers feature) (Chunker.remainingFileLen (κ := κ))
            (r.pipe.setLoc 0 (Chunker.reinitWithFile (κ := κ) content (r.pipe.loc 0)).2)
          have hlast : (workers (κ := κ) (ι := ι) feature).last = 4 := rfl
          rw [hlast] at hset hstart
          have hfile : fileCost (name, content) =
              2 + ∑ w ∈ range (4 + 1), loopCost 4 w + chunkCost 4 * (MappedFile.open content).len := rfl
          unfold cost
          dsimp only
          rw [hfiles, if_neg hadd, if_pos rfl, List.map_cons, List.sum_cons, hfile]
          omega

/-- **Some step is heard**, where someone can step: a worker that is about to block goes first. -/
theorem exists_heard {a : Actor} (hs : LockedRun.step feature a r = some r') :
    ∃ b r₁, NotifyHeard r b ∧ LockedRun.step feature b r = some r₁ := by
  by_cases hheard : NotifyHeard r a
  · exact ⟨a, r', hheard, hs⟩
  · unfold NotifyHeard at hheard
    push Not at hheard
    obtain ⟨v, -, -, context, hsleep⟩ := hheard
    refine ⟨.worker (v + 1),
      { r with pipe := (r.pipe.setOwner v none).goto (v + 1) (.queue (.get context) .blocked) }, fun u hu hpc => ?_, ?_⟩
    · obtain rfl := Actor.worker.inj hu
      rw [hsleep] at hpc
      cases hpc
    · simp only [LockedRun.step, LockedState.step, hsleep]
      rfl

theorem Runs.cons {Meets : LockedRun κ ι φ → Actor → Prop} {r₁ : LockedRun κ ι φ}
    {a : Actor} (hm : Meets r a) (hs : LockedRun.step feature a r = some r₁) (h : Runs feature Meets r₁ r') :
    Runs feature Meets r r' := by
  induction h with
  | start => exact .step (.start r) hm hs
  | step _ hm' hs' ih => exact .step ih hm' hs'

/-- **A run can go on to its end** with each notification heard. -/
theorem Going.ends (hκ : ChunkerShortens κ ok) (h : Going feature ok r) :
    ∃ r', Runs feature NotifyHeard r r' ∧ ∀ a, LockedRun.step feature a r' = none := by
  induction hn : r.cost feature using Nat.strong_induction_on generalizing r with
  | _ n ih =>
    by_cases hend : ∀ a, LockedRun.step feature a r = none
    · exact ⟨r, .start r, hend⟩
    · push Not at hend
      obtain ⟨a, ha⟩ := hend
      obtain ⟨r₀, hr₀⟩ := Option.ne_none_iff_exists'.1 ha
      obtain ⟨b, r₁, hheard, hs⟩ := exists_heard hr₀
      obtain ⟨hgoing, hlt⟩ := h.step hκ hs
      obtain ⟨r', hruns, hend'⟩ := ih _ (hn ▸ hlt) hgoing rfl
      exact ⟨r', hruns.cons hheard hs, hend'⟩

/-- A run has a schedule. -/
theorem exec_of_runs {Meets : LockedRun κ ι φ → Actor → Prop} (h : Runs feature Meets r r') :
    ∃ schedule, LockedRun.exec feature schedule r = some r' := by
  induction h with
  | start => exact ⟨[], rfl⟩
  | @step r₁ r₂ a _ _ hs ih =>
    obtain ⟨schedule, he⟩ := ih
    exact ⟨schedule ++ [a], Scheduled.exec_trans he (Scheduled.exec_one hs)⟩

theorem going_new {k : κ} (hk : ok k) (feature : Chunk → φ) (index : ι) (cacheSize : ℕ)
    (files : List (String × FileContent)) : Going feature ok (.new k index cacheSize files) :=
  ⟨fun _ => .of_outside trivial (by simp [LockedRun.new]), hk⟩

/-- **Any schedule.** -/
theorem Going.exec (hκ : ChunkerShortens κ ok) (h : Going feature ok r) {schedule : List Actor}
    (hr : LockedRun.exec feature schedule r = some r') : Going feature ok r' := by
  have hstep : ∀ a (r r' : LockedRun κ ι φ), Going feature ok r → LockedRun.step feature a r = some r' →
      Going feature ok r' := fun _ _ _ h hs => (h.step hκ hs).1
  exact Scheduled.exec_inv hstep schedule h hr

/-- **No run is longer** than what its start costs. -/
theorem length_le_cost (hκ : ChunkerShortens κ ok) {k : κ} (hk : ok k) (feature : Chunk → φ) (index : ι)
    (cacheSize : ℕ) (files : List (String × FileContent)) {schedule : List Actor}
    (hr : LockedRun.exec feature schedule (.new k index cacheSize files) = some r) :
    schedule.length ≤ (LockedRun.new k index cacheSize files : LockedRun κ ι φ).cost feature := by
  have h := going_new hk feature index cacheSize files
  have hstep : ∀ a (r r' : LockedRun κ ι φ), Going feature ok r → LockedRun.step feature a r = some r' →
      Going feature ok r' := fun _ _ _ h hs => (h.step hκ hs).1
  have hcost : ∀ a (r r' : LockedRun κ ι φ), Going feature ok r → LockedRun.step feature a r = some r' →
      cost feature r' < cost feature r := fun _ _ _ h hs => (h.step hκ hs).2
  have hle := Scheduled.exec_length_le hstep hcost schedule h hr
  omega

/-- **Where nobody can step**, all files have been added or a worker has crashed, if each notification was heard. -/
theorem RunOK.ended (h : RunOK feature r) (hend : ∀ a, LockedRun.step feature a r = none) :
    (∃ w ≤ 4, r.pipe.pc w = .crashed) ∨ (r.adding = false ∧ r.files = []) := by
  have hmain := hend .main
  rw [LockedRun.step] at hmain
  cases hadd : r.adding with
  | false =>
    refine .inr ⟨rfl, ?_⟩
    cases hfiles : r.files with
    | nil => rfl
    | cons file files => simp [hadd, hfiles] at hmain
  | true =>
    left
    by_contra hno
    refine (h.locks hadd).not_stuck (Nat.zero_lt_succ 127) ⟨fun w hw hc => hno ⟨w, hw, hc⟩, ?_, fun w hw => ?_⟩
    · -- `main` would join workers that have all returned
      by_contra hall
      have hret : ((List.range 5).all fun w => (r.pipe.pc w).isReturned) = true := by
        refine List.all_eq_true.2 fun w hw => ?_
        by_contra hne
        refine hall ⟨w, Nat.le_of_lt_succ (List.mem_range.1 hw), fun he => hne ?_⟩
        rw [he]
        rfl
      rw [if_pos hadd, if_pos hret] at hmain
      cases hmain
    · exact Option.map_eq_none_iff.1 (hend (.worker w))

end LockedRun

/-! ## The chunkers -/

theorem cutLoop_le {mem : List UInt8} {mask : UInt64} : ∀ {k : ℕ} {v v' : FastScan} {found : Bool},
    FastCDC.cutLoop mem mask k v = some (found, v') → v.chunkSize ≤ v'.chunkSize := by
  intro k
  induction k with
  | zero =>
    intro v v' found h
    obtain ⟨-, rfl⟩ := Prod.mk.inj (Option.some.inj h)
    exact le_rfl
  | succ k ih =>
    intro v v' found h
    simp only [FastCDC.cutLoop, Option.bind_eq_bind, Option.bind_eq_some_iff] at h
    obtain ⟨byte, -, h⟩ := h
    split at h
    · obtain ⟨-, rfl⟩ := Prod.mk.inj (Option.some.inj h)
      exact le_rfl
    · obtain ⟨size, hsize, h⟩ := Option.bind_eq_some_iff.1 h
      obtain rfl := FastCDC.nextSize_eq_some hsize
      exact (Nat.le_succ _).trans (ih h)

theorem scanLoop_le {s : RabinCDC} : ∀ {k : ℕ} {v v' : RabinScan} {found : Bool},
    s.scanLoop k v = some (found, v') → v.chunkSize ≤ v'.chunkSize := by
  intro k
  induction k with
  | zero =>
    intro v v' found h
    obtain ⟨-, rfl⟩ := Prod.mk.inj (Option.some.inj h)
    exact le_rfl
  | succ k ih =>
    intro v v' found h
    simp only [RabinCDC.scanLoop, Option.bind_eq_bind, Option.bind_eq_some_iff] at h
    obtain ⟨byte, -, h⟩ := h
    split at h
    · obtain ⟨-, rfl⟩ := Prod.mk.inj (Option.some.inj h)
      exact le_rfl
    · exact (Nat.le_succ _).trans (ih h)

theorem minLoop_chunkSize {mem : List UInt8} : ∀ {k : ℕ} {v v' : FastScan},
    FastCDC.minLoop mem k v = some v' → v'.chunkSize = v.chunkSize + k := by
  intro k
  induction k with
  | zero =>
    intro v v' h
    obtain rfl := Option.some.inj h
    rfl
  | succ k ih =>
    intro v v' h
    simp only [FastCDC.minLoop, Option.bind_eq_bind, Option.bind_eq_some_iff] at h
    obtain ⟨byte, -, size, hsize, h⟩ := h
    obtain rfl := FastCDC.nextSize_eq_some hsize
    rw [ih h]
    show v.chunkSize + 1 + k = v.chunkSize + (k + 1)
    omega

/-- **A call of `FastCDC`** leaves less behind if it returns a chunk, and changes no chunk size. -/
theorem fast_shortens {s s' : FastCDC} {c : Option Chunk} (hmin : 1 ≤ s.minChunkSize)
    (h : s.getNextChunk = some (c, s')) : s'.minChunkSize = s.minChunkSize ∧
      s'.remainingFileLen + (if c.isSome then 1 else 0) ≤ s.remainingFileLen := by
  unfold FastCDC.getNextChunk at h
  split at h
  · obtain ⟨rfl, rfl⟩ := Prod.mk.inj (Option.some.inj h)
    exact ⟨rfl, le_rfl⟩
  rename_i hpos
  split at h
  · simp only [Option.bind_eq_bind, Option.bind_eq_some_iff, Option.some.injEq, Prod.mk.injEq] at h
    obtain ⟨chunk, -, rfl, rfl⟩ := h
    exact ⟨rfl, show 0 + 1 ≤ s.remainingFileLen by omega⟩
  · rename_i hlong
    simp only [Option.bind_eq_bind, Option.bind_eq_some_iff, Option.some.injEq, Prod.mk.injEq] at h
    obtain ⟨v, hv, ⟨found, v'⟩, hv', chunk, -, rfl, rfl⟩ := h
    have hsize := minLoop_chunkSize hv
    have hle := cutLoop_le hv'
    refine ⟨rfl, ?_⟩
    dsimp only at hsize hle ⊢
    simp only [Option.isSome_some, if_true]
    split <;> omega

/-- **A call of `RabinCDC`**. -/
theorem rabin_shortens {s s' : RabinCDC} {c : Option Chunk} (h : s.getNextChunk = some (c, s')) :
    s'.remainingFileLen + (if c.isSome then 1 else 0) ≤ s.remainingFileLen := by
  unfold RabinCDC.getNextChunk at h
  split at h
  · obtain ⟨rfl, rfl⟩ := Prod.mk.inj (Option.some.inj h)
    exact le_rfl
  rename_i hpos
  split at h
  · simp only [Option.bind_eq_bind, Option.bind_eq_some_iff, Option.some.injEq, Prod.mk.injEq] at h
    obtain ⟨chunk, -, rfl, rfl⟩ := h
    exact show 0 + 1 ≤ s.remainingFileLen by omega
  · simp only [Option.bind_eq_bind, Option.bind_eq_some_iff] at h
    obtain ⟨⟨found, v⟩, hv, h⟩ := h
    have hle := scanLoop_le hv
    dsimp only at h hle
    split at h
    · simp only [Option.bind_eq_some_iff, Option.some.injEq, Prod.mk.injEq] at h
      obtain ⟨chunk, -, rfl, rfl⟩ := h
      simp only [Option.isSome_some, if_true]
      omega
    · obtain ⟨rfl, rfl⟩ := Prod.mk.inj (Option.some.inj h)
      exact le_rfl

theorem fastCDC_shortens : ChunkerShortens FastCDC fun s => 1 ≤ s.minChunkSize where
  reinit := by
    intro s content hmin
    simp only [Chunker.reinitWithFile, Chunker.remainingFileLen, FastCDC.reinitWithFile]
    split
    · exact ⟨hmin, Nat.le_add_right _ _⟩
    · exact ⟨hmin, Nat.le_add_left _ _⟩
  keeps hmin h := (fast_shortens hmin h).1 ▸ hmin
  made hmin h := (fast_shortens hmin h).2
  exhausted hmin h := (fast_shortens hmin h).2

theorem rabinCDC_shortens : ChunkerShortens RabinCDC fun _ => True where
  reinit := by
    intro s content _
    simp only [Chunker.reinitWithFile, Chunker.remainingFileLen, RabinCDC.reinitWithFile]
    split
    · exact ⟨trivial, Nat.le_add_right _ _⟩
    · exact ⟨trivial, Nat.le_add_left _ _⟩
  keeps _ _ := trivial
  made _ h := rabin_shortens h
  exhausted _ h := rabin_shortens h

/-- **Runs of the pipeline end.** With a chunker that shortens what is left of its file, there is a bound on the
length of all schedules, whatever the workers do and whoever is heard. A run in which each notification is heard
can go on like that to its end, where nobody can step; and there all files have been added, unless the code of a
worker has crashed. -/
theorem locks_end {κ ι φ : Type} [Chunker κ] [Index ι φ] [Inhabited φ] {ok : κ → Prop} (hκ : ChunkerShortens κ ok)
    {k : κ} (hk : ok k) (feature : Chunk → φ) (index : ι) (cacheSize : ℕ) (files : List (String × FileContent)) :
    (∃ bound, ∀ schedule (r : LockedRun κ ι φ),
      LockedRun.exec feature schedule (.new k index cacheSize files) = some r → schedule.length ≤ bound) ∧
    ∀ r : LockedRun κ ι φ, LockedRun.Runs feature LockedRun.NotifyHeard (.new k index cacheSize files) r →
      (∃ r', LockedRun.Runs feature LockedRun.NotifyHeard r r' ∧ ∀ a, LockedRun.step feature a r' = none) ∧
      ((∀ a, LockedRun.step feature a r = none) →
        (∃ w ≤ 4, r.pipe.pc w = .crashed) ∨ (r.adding = false ∧ r.files = [])) := by
  refine ⟨⟨_, fun _ _ hr => LockedRun.length_le_cost hκ hk feature index cacheSize files hr⟩, fun r hr => ⟨?_, ?_⟩⟩
  · obtain ⟨schedule, hexec⟩ := LockedRun.exec_of_runs hr
    exact ((LockedRun.going_new hk feature index cacheSize files).exec hκ hexec).ends hκ
  · exact (LockedRun.runOK_of_runs hr (LockedRun.runOK_new feature k index cacheSize files)).ended

/-- Both chunkers; and a run in which worker 1 has just blocked goes on to its end. -/
theorem locks_end_chunkers :
    (∃ bound, ∀ schedule (r : LockedRun FastCDC BestFitIndex (Feature ℚ)),
      LockedRun.exec OdessSubfeatures.call schedule
        (.new (FastCDC.new 1 1 0) (BestFitIndex.new (.byInsertion _) 12) 1 [("a", some [7])]) = some r →
      schedule.length ≤ bound) ∧
    (∃ bound, ∀ schedule (r : LockedRun RabinCDC BestFitIndex (Feature ℚ)),
      LockedRun.exec OdessSubfeatures.call schedule
        (.new (RabinCDC.new 1 1 0 .rabinReset) (BestFitIndex.new (.byInsertion _) 12) 1 [("a", some [7])]) = some r →
      schedule.length ≤ bound) ∧
    ∃ r r' : LockedRun FastCDC BestFitIndex (Feature ℚ),
      LockedRun.Runs OdessSubfeatures.call LockedRun.NotifyHeard
        (.new (FastCDC.new 1 1 0) (BestFitIndex.new (.byInsertion _) 12) 1 [("a", some [7])]) r ∧
      r.pipe.pc 1 = .queue (.get none) .blocked ∧ LockedRun.Runs OdessSubfeatures.call LockedRun.NotifyHeard r r' ∧
      (∀ a, LockedRun.step OdessSubfeatures.call a r' = none) ∧
      ((∃ w ≤ 4, r'.pipe.pc w = .crashed) ∨ (r'.adding = false ∧ r'.files = [])) := by
  obtain ⟨hbound, hend⟩ := locks_end fastCDC_shortens (k := FastCDC.new 1 1 0) le_rfl
    (OdessSubfeatures.call : Chunk → Feature ℚ) (BestFitIndex.new (.byInsertion _) 12) 1 [("a", some [7])]
  refine ⟨hbound, (locks_end rabinCDC_shortens trivial _ _ _ _).1, ?_⟩
  have hrun : (LockedRun.execHeard OdessSubfeatures.call (.main :: [1, 1, 1].map .worker)
      (.new (FastCDC.new 1 1 0) (BestFitIndex.new (.byInsertion _) 12) 1 [("a", some [7])])).map
        (fun r : LockedRun FastCDC BestFitIndex (Feature ℚ) => r.pipe.pc 1) = some (.queue (.get none) .blocked) := by
    decide +kernel
  obtain ⟨r, hr, hblocked⟩ := Option.map_eq_some_iff.1 hrun
  have hheard := LockedRun.runs_of_execHeard hr
  obtain ⟨r', hr', hstuck⟩ := (hend r hheard).1
  exact ⟨r, r', hheard, hblocked, hr', hstuck, (hend r' (hheard.trans hr')).2 hstuck⟩

end ChunkGrouping
