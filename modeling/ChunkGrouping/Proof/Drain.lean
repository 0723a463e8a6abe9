import ChunkGrouping.Lib.Chop
import ChunkGrouping.Model.Chunker

/-!
# What a drain returns

`StepOK` says once what one `GetNextChunk` does: either it stops, or it cuts a
piece off what is left of the file, at a length the chunker's rule `P` allows.
`drain_ok` is the run: the drain ends, its chunks are pieces `P` cuts off, and
their ids are numbered on from the counter.
-/

namespace ChunkGrouping

open Cutting

/-- The bytes a chunk over memory `p` shows: the length is cut to an `int`. -/
def shown (p : List UInt8) : List UInt8 := p.take (intOfSize p.length).toNat

theorem shown_eq {p : List UInt8} (h : p.length < 2 ^ 31) : shown p = p := by
  unfold shown; rw [intOfSize_of_lt h]; simp

theorem length_shown_lt {p : List UInt8} (h : 2 ^ 31 ≤ p.length) : (shown p).length < p.length := by
  unfold shown; rw [List.length_take]; exact lt_of_le_of_lt (min_le_left _ _) (intOfSize_lt h)

theorem shown_eq_iff {p : List UInt8} : shown p = p ↔ p.length < 2 ^ 31 := by
  refine ⟨fun h => ?_, shown_eq⟩
  by_contra hlong
  have hlt := length_shown_lt (Nat.le_of_not_lt hlong)
  rw [h] at hlt
  exact lt_irrefl _ hlt

theorem length_shown_le (p : List UInt8) : (shown p).length ≤ p.length := by
  unfold shown; exact List.length_take_le' _ _

/-- A chunk over memory: the piece of `size` bytes from `start` on, as far as it shows. -/
theorem fromMemoryRef_shown {mem : List UInt8} {start size id : ℕ} (h : start + size ≤ mem.length) :
    Chunk.fromMemoryRef mem start size id = some ⟨shown ((mem.drop start).take size), id⟩ := by
  have hl : ((mem.drop start).take size).length = size := by
    rw [List.length_take, List.length_drop]; omega
  have hm : min (intOfSize size).toNat size = (intOfSize size).toNat := by
    rcases Nat.lt_or_ge size (2 ^ 31) with hs | hs
    · rw [intOfSize_of_lt hs]; simp
    · exact min_eq_left (intOfSize_lt hs).le
  rw [Chunk.fromMemoryRef_eq id h]
  unfold shown
  rw [hl, List.take_take, hm]

variable {κ : Type} [Chunker κ]

/-- What one `GetNextChunk` does in state `s`, `rest s` being what is left of the file: it stops
in a state `stop` describes, or it cuts off a piece whose length `P` allows. -/
def StepOK (rest : κ → List UInt8) (inv stop : κ → Prop) (P : List UInt8 → ℕ → Prop) (s : κ) : Prop :=
  (stop s ∧ ∃ s', Chunker.getNextChunk s = some (none, s') ∧
      Chunker.nextChunkId s' = Chunker.nextChunkId s) ∨
  ∃ n s', 0 < n ∧ n ≤ (rest s).length ∧ P (rest s) n ∧
    Chunker.getNextChunk s = some (some ⟨shown ((rest s).take n), Chunker.nextChunkId s⟩, s') ∧
    inv s' ∧ rest s' = (rest s).drop n ∧ Chunker.nextChunkId s' = nextId (Chunker.nextChunkId s)

/-- What a drain from `s` returns. -/
structure DrainOK (rest : κ → List UInt8) (inv stop : κ → Prop) (P : List UInt8 → ℕ → Prop) (s : κ)
    (cs : List Chunk) (s' : κ) (ps : List (List UInt8)) (last : κ) : Prop where
  chop : Chop P (rest s) ps (rest last)
  bytes : cs.map Chunk.buf = ps.map shown
  ids : cs.map Chunk.id = idsFrom (Chunker.nextChunkId s) cs.length
  next : Chunker.nextChunkId s' = nextId^[cs.length] (Chunker.nextChunkId s)
  inv_last : inv last
  stop_last : stop last
  returns : Chunker.getNextChunk last = some (none, s')

/-- **The drain, from its step.** Each round either stops or shortens what is left. -/
theorem drainLoop_ok {rest : κ → List UInt8} {inv stop : κ → Prop} {P : List UInt8 → ℕ → Prop}
    (hstep : ∀ s, inv s → StepOK rest inv stop P s) :
    ∀ fuel s, inv s → (rest s).length < fuel →
      ∃ cs s' ps last, drainLoop fuel s = some (cs, s') ∧ DrainOK rest inv stop P s cs s' ps last := by
  intro fuel
  induction fuel with
  | zero => intro s _ hf; omega
  | succ fuel ih =>
    intro s hs hf
    rcases hstep s hs with ⟨hst, s', hn, hid⟩ | ⟨n, s₁, hpos, hle, hP, hn, hs₁, hr, hid⟩
    · refine ⟨[], s', [], s, ?_, ⟨.done _, rfl, rfl, hid, hs, hst, hn⟩⟩
      simp [drainLoop, hn]
    · obtain ⟨cs, s', ps, last, hd, h⟩ := ih s₁ hs₁ (by rw [hr, List.length_drop]; omega)
      refine ⟨⟨shown ((rest s).take n), Chunker.nextChunkId s⟩ :: cs, s', (rest s).take n :: ps, last,
        by simp [drainLoop, hn, hd], ?_⟩
      refine ⟨.cut hpos hle hP (hr ▸ h.chop), ?_, ?_, ?_, h.inv_last, h.stop_last, h.returns⟩
      · simp [h.bytes]
      · simp [idsFrom, h.ids, hid]
      · rw [h.next, hid, List.length_cons, Function.iterate_succ_apply]

/-- **What `drain` returns**, when `remaining_file_len` counts what is left. -/
theorem drain_ok {rest : κ → List UInt8} {inv stop : κ → Prop} {P : List UInt8 → ℕ → Prop}
    (hstep : ∀ s, inv s → StepOK rest inv stop P s) {s : κ} (hs : inv s)
    (hlen : (rest s).length ≤ Chunker.remainingFileLen s) :
    ∃ cs s' ps last, drain s = some (cs, s') ∧ DrainOK rest inv stop P s cs s' ps last :=
  drainLoop_ok hstep _ s hs (by omega)

/-- A drain that stops at once. -/
theorem drain_nullptr {s s' : κ} (h : Chunker.getNextChunk s = some (none, s')) : drain s = some ([], s') := by
  unfold drain
  rw [drainLoop, h]
  rfl

/-- A drain whose first call reads out of range. -/
theorem drain_out_of_range {s : κ} (h : Chunker.getNextChunk s = none) : drain s = none := by
  unfold drain
  rw [drainLoop, h]
  rfl

theorem length_flatten_shown_le (ps : List (List UInt8)) :
    (ps.map shown).flatten.length ≤ ps.flatten.length := by
  induction ps with
  | nil => simp
  | cons p ps ih =>
    have := length_shown_le p
    simp only [List.map_cons, List.flatten_cons, List.length_append]; omega

/-- The total length the chunks show reaches that of their pieces only if every length fits. -/
theorem shown_flatten {ps : List (List UInt8)} (h : (ps.map shown).flatten.length = ps.flatten.length) :
    ∀ p ∈ ps, p.length < 2 ^ 31 := by
  induction ps with
  | nil => simp
  | cons p ps ih =>
    simp only [List.map_cons, List.flatten_cons, List.length_append] at h
    have hle := length_flatten_shown_le ps
    have hp := length_shown_le p
    intro q hq
    rcases List.mem_cons.1 hq with rfl | hq
    · by_contra hc
      have := length_shown_lt (p := q) (by omega)
      omega
    · exact ih (by omega) q hq

theorem map_shown_eq {ps : List (List UInt8)} (h : ∀ p ∈ ps, p.length < 2 ^ 31) :
    ps.map shown = ps := by
  conv_rhs => rw [← List.map_id ps]
  exact List.map_congr_left fun p hp => shown_eq (h p hp)

end ChunkGrouping
