import ChunkGrouping.Proof.RabinHistory

/-!
# `RabinCDC` after a failed `ReinitWithFile`

A `ReinitWithFile` that fails replaces the mapping, but leaves the read pointer and
`remaining_file_len` of the file before. They are harmless if that file was drained to its end:
then nothing is left. Where the scan ran off the end of the file, bytes are left, and the next
`GetNextChunk` reads them through a pointer into the mapping that is gone.

* `RabinDrained`: the state a drain leaves, by the last file that could be mapped.
* `drainFile_drained`: one file; `drainFiles_drained`: a history of files.
* `rabin_failed_reinit_iff`: when `GetNextChunk` is harmless after a failed `ReinitWithFile`.
-/

namespace ChunkGrouping

open Cutting

variable {min max : ℕ} {mask : UInt64}

/-- The last file of a history that could be mapped, empty if there is none. -/
def lastMapped (files : List FileContent) (before : List UInt8) : List UInt8 :=
  files.foldl (fun last content =>
    if (MappedFile.open content).mapSuccess then (MappedFile.open content).mapped else last) before

/-- The chunker's rule cuts `content` up: it does not come to a rest of more than `min` bytes in which there is
no cut position. -/
def RabinCutUp (min max : ℕ) (mask : UInt64) (content : List UInt8) : Prop :=
  ∃ ps, Chop (RabinPiece min max mask) content ps []

/-- **What a drain leaves**: nothing, if the last file that could be mapped was cut up; otherwise something, and
the read pointer is not in front of any byte that can be read. -/
structure RabinDrained (min max : ℕ) (mask : UInt64) (last : List UInt8) (s : RabinCDC) : Prop where
  cursor : (s.remainingFileLen = 0 ∧ RabinCutUp min max mask last) ∨
    (s.remainingFileLen ≠ 0 ∧ ¬ RabinCutUp min max mask last ∧ s.file.mapped.length ≤ s.fileReadPtr)
  min : s.minChunkSize = min
  max : s.maxChunkSize = max
  mask : s.rabinStopMask = mask

theorem rabinDrained_new (min max : ℕ) (mask : UInt64) (junk : RabinWindow) :
    RabinDrained min max mask [] (.new min max mask junk) :=
  ⟨.inl ⟨rfl, [], .done []⟩, rfl, rfl, rfl⟩

/-! ## `ReinitWithFile` that fails -/

/-- **`GetNextChunk` after a failed `ReinitWithFile`.** With nothing left it returns `nullptr`; otherwise it reads out
of range. -/
theorem RabinDrained.getNextChunk_failed {last : List UInt8} {s : RabinCDC} (h : RabinDrained min max mask last s)
    {content : FileContent} (hfail : (MappedFile.open content).mapSuccess = false) :
    (RabinCutUp min max mask last ∧
      (s.reinitWithFile content).2.getNextChunk = some (none, (s.reinitWithFile content).2)) ∨
    (¬ RabinCutUp min max mask last ∧ (s.reinitWithFile content).2.getNextChunk = none) := by
  rw [reinitWithFile_failed hfail]
  rcases h.cursor with ⟨hzero, hup⟩ | ⟨hpos, hup, -⟩
  · exact .inl ⟨hup, if_pos hzero⟩
  · exact .inr ⟨hup, getNextChunk_off_end hpos (Nat.zero_le _)⟩

/-! ## Drains -/

/-- **Where `GetNextChunk` stops**: with nothing left, or behind the last byte with something left. -/
theorem rabin_stops {s s' : RabinCDC} (h : RabinOK min max mask s) (hn : s.getNextChunk = some (none, s')) :
    (s.remainingFileLen = 0 ∧ s' = s) ∨
      (s.remainingFileLen ≠ 0 ∧ ∃ win, s' = { s with win, fileReadPtr := s.file.mapped.length }) := by
  by_cases hzero : s.remainingFileLen = 0
  · have hsame : s.getNextChunk = some (none, s) := if_pos hzero
    exact .inl ⟨hzero, (Prod.mk.inj (Option.some.inj (hn.symm.trans hsame))).2⟩
  obtain ⟨hcur, hwin⟩ := h.cursor.resolve_left hzero
  by_cases hle : s.remainingFileLen ≤ s.minChunkSize
  · -- a short remainder is returned
    exact absurd (Prod.mk.inj (Option.some.inj (hn.symm.trans (rabin_short hcur hzero hle)))).1 (by simp)
  · rcases rabin_scan hcur hwin (by omega) with ⟨m, -, -, -, -, hget⟩ | ⟨-, win, hget⟩
    · exact absurd (Prod.mk.inj (Option.some.inj (hn.symm.trans hget))).1 (by simp)
    · exact .inr ⟨hzero, win, (Prod.mk.inj (Option.some.inj (hn.symm.trans hget))).2⟩

/-- A rest without a cut position is not cut up. -/
theorem not_cutUp_of_stuck {l r : List UInt8} {ps : List (List UInt8)} (h : Chop (RabinPiece min max mask) l ps r)
    (hlong : min < r.length) (hno : ∀ n, 0 < n → n ≤ r.length → ¬ rabinStop min max mask r n) :
    ¬ RabinCutUp min max mask l := by
  rintro ⟨qs, hqs⟩
  obtain ⟨ts, rfl, hts⟩ := h.prefix_of RabinPiece.functional hqs
  cases hts with
  | done => exact absurd hlong (Nat.not_lt_zero _)
  | @cut _ n _ _ pos le ok _ =>
    rcases ok with ⟨hshort, -⟩ | ⟨-, -, -, hstop, -⟩
    · omega
    · exact hno n pos le hstop

/-- **A file that can be mapped**, drained. -/
theorem drainFile_mapped {s s' : RabinCDC} {cs : List Chunk} {content : FileContent}
    (hmap : (MappedFile.open content).mapSuccess = true) (hmin : s.minChunkSize = min) (hmax : s.maxChunkSize = max)
    (hmask : s.rabinStopMask = mask) (hd : drainFile content s = some (cs, s')) :
    RabinDrained min max mask (MappedFile.open content).mapped s' := by
  cases content with
  | none => cases hmap
  | some bytes =>
    rw [MappedFile.open_some]
    obtain ⟨hok, hrest⟩ := rabinOK_reinit hmin hmax hmask (MappedFile.mapSuccess_some.1 hmap)
    obtain ⟨cs', s₂, ps, last, hd', h⟩ := drain_ok (fun _ => rabin_step) hok hok.length_rest.le
    obtain ⟨-, rfl⟩ := Prod.mk.inj (Option.some.inj (hd.symm.trans hd'))
    have hchop : Chop (RabinPiece min max mask) bytes ps last.rest := hrest ▸ h.chop
    have hlast := h.inv_last
    rcases rabin_stops hlast h.returns with ⟨hzero, rfl⟩ | ⟨hpos, win, rfl⟩
    · have hnil : s'.rest = [] := if_pos hzero
      rw [hnil] at hchop
      exact ⟨.inl ⟨hzero, ps, hchop⟩, hlast.min, hlast.max, hlast.mask⟩
    · -- something is left: the scan did not find a cut position in it
      have hstuck := h.stop_last.resolve_left fun hnil => by
        have hlen := hlast.length_rest
        rw [hnil] at hlen
        exact hpos hlen.symm
      rw [hlast.min, hlast.max, hlast.mask] at hstuck
      exact ⟨.inr ⟨hpos, not_cutUp_of_stuck hchop hstuck.1 hstuck.2, le_rfl⟩, hlast.min, hlast.max, hlast.mask⟩

/-- **One file.** -/
theorem drainFile_drained {last : List UInt8} {s s' : RabinCDC} {cs : List Chunk} {content : FileContent}
    (h : RabinDrained min max mask last s) (hd : drainFile content s = some (cs, s')) :
    RabinDrained min max mask (lastMapped [content] last) s' := by
  by_cases hmap : (MappedFile.open content).mapSuccess = true
  · have hlast : lastMapped [content] last = (MappedFile.open content).mapped := if_pos hmap
    rw [hlast]
    exact drainFile_mapped hmap h.min h.max h.mask hd
  · have hlast : lastMapped [content] last = last := if_neg hmap
    have hfail : (MappedFile.open content).mapSuccess = false := Bool.eq_false_of_not_eq_true hmap
    rw [hlast]
    rcases h.getNextChunk_failed hfail with ⟨hup, hget⟩ | ⟨-, hget⟩
    · have hs' : s' = (s.reinitWithFile content).2 :=
        (Prod.mk.inj (Option.some.inj (hd.symm.trans (drain_nullptr hget)))).2
      rw [hs', reinitWithFile_failed hfail]
      have hzero : s.remainingFileLen = 0 := by
        by_contra hpos
        exact (h.cursor.resolve_left fun hz => hpos hz.1).2.1 hup
      exact ⟨.inl ⟨hzero, hup⟩, h.min, h.max, h.mask⟩
    · -- the history would have ended here
      exact absurd (hd.symm.trans (drain_out_of_range hget)) (by simp)

/-- **A history of files.** -/
theorem drainFiles_drained (files : List FileContent) :
    ∀ {last : List UInt8} {s s' : RabinCDC} {css : List (List Chunk)},
    RabinDrained min max mask last s → drainFiles files s = some (css, s') →
      RabinDrained min max mask (lastMapped files last) s' := by
  induction files with
  | nil =>
    intro last s s' css h hd
    obtain ⟨-, rfl⟩ := Prod.mk.inj (Option.some.inj hd)
    exact h
  | cons content files ih =>
    intro last s s' css h hd
    obtain ⟨⟨cs, s₁⟩, h₁, hd⟩ := Option.bind_eq_some_iff.1 hd
    obtain ⟨⟨rest, s₂⟩, h₂, hd⟩ := Option.bind_eq_some_iff.1 hd
    obtain ⟨-, rfl⟩ := Prod.mk.inj (Option.some.inj hd)
    exact ih (drainFile_drained h h₁) h₂

/-- **After a failed `ReinitWithFile`**, whatever files were drained before: `GetNextChunk` returns `nullptr`, and
reads nothing, exactly when the last file that could be mapped was cut up. -/
theorem rabin_failed_reinit_iff (min max : ℕ) (mask : UInt64) (junk : RabinWindow) (files : List FileContent)
    {css : List (List Chunk)} {s : RabinCDC}
    (hs : drainFiles files (RabinCDC.new min max mask junk) = some (css, s)) {content : FileContent}
    (hfail : (s.reinitWithFile content).1 = false) :
    (∃ s', (s.reinitWithFile content).2.getNextChunk = some (none, s')) ↔
      RabinCutUp min max mask (lastMapped files []) := by
  have h := drainFiles_drained files (rabinDrained_new min max mask junk) hs
  rw [reinitWithFile_result] at hfail
  rcases h.getNextChunk_failed hfail with ⟨hup, hget⟩ | ⟨hup, hget⟩
  · exact ⟨fun _ => hup, fun _ => ⟨_, hget⟩⟩
  · refine ⟨?_, fun hup' => absurd hup' hup⟩
    rintro ⟨s', hnull⟩
    exact absurd (hnull.symm.trans hget) (by simp)

/-- A file of one byte, then one that cannot be mapped. -/
theorem rabin_failed_reinit_one : ∃ css s s',
    drainFiles [some [7]] (RabinCDC.new 1 1 0 ⟨[], 0, 0⟩) = some (css, s) ∧
      (s.reinitWithFile none).2.getNextChunk = some (none, s') := by
  have hsome : (drainFiles [some [7]] (RabinCDC.new 1 1 0 ⟨[], 0, 0⟩)).isSome := by decide +kernel
  obtain ⟨⟨css, s⟩, hs⟩ := Option.isSome_iff_exists.1 hsome
  have hup : RabinCutUp 1 1 0 (lastMapped [some [7]] []) :=
    ⟨[[7]], .cut (l := [7]) (n := 1) one_pos le_rfl (.inl ⟨le_rfl, rfl⟩) (.done [])⟩
  obtain ⟨s', hget⟩ := (rabin_failed_reinit_iff 1 1 0 ⟨[], 0, 0⟩ [some [7]] hs
    (reinitWithFile_result none s)).2 hup
  exact ⟨css, s, s', hs, hget⟩

/-- A file of three bytes whose scan runs off the end, then an empty file: `GetNextChunk` reads out of range. -/
theorem rabin_failed_reinit_reads : ∃ css s,
    drainFiles [some [1, 2, 3]] (RabinCDC.new 2 8 8191 ⟨[], 0, 0⟩) = some (css, s) ∧
      (s.reinitWithFile (some [])).1 = false ∧ (s.reinitWithFile (some [])).2.getNextChunk = none := by
  obtain ⟨cs, s, -, -, hs, -⟩ := drainFile_rabin 2 8 8191 ⟨[], 0, 0⟩ [1, 2, 3]
  have hrun : drainFiles [some [1, 2, 3]] (RabinCDC.new 2 8 8191 ⟨[], 0, 0⟩) = some ([cs], s) := by
    rw [drainFiles, hs]
    rfl
  have hdrained := drainFiles_drained _ (rabinDrained_new 2 8 8191 ⟨[], 0, 0⟩) hrun
  have hup : ¬ RabinCutUp 2 8 8191 [1, 2, 3] := not_cutUp_of_stuck (.done _) (by decide) not_rabinStop_three
  have hfail : (MappedFile.open (some [])).mapSuccess = false := rfl
  rcases hdrained.getNextChunk_failed hfail with ⟨hup', -⟩ | ⟨-, hget⟩
  · exact absurd hup' hup
  · exact ⟨[cs], s, hrun, reinitWithFile_result _ s, hget⟩

end ChunkGrouping
