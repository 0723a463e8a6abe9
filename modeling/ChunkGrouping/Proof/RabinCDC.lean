import ChunkGrouping.Proof.Drain
import ChunkGrouping.Model.RabinCDC

/-!
# `RabinCDC` and the end of the file

`RabinCut` is the rule by which the scanning loop cuts, `RabinPiece` adds the short
remainder. `rabin_scan` says what a call that scans returns and `rabin_step` what any
`GetNextChunk` does. It has a third way out: with more than `min` bytes left and no
cut position among them it returns `nullptr`, and those bytes are in no chunk.

* `rabin_lossless_iff`: a drain returns the whole file if and only if cutting the
  file by the rule never meets such a rest, and no piece is too long for an `int`.
-/

namespace ChunkGrouping

open Cutting

variable {min max : ℕ} {mask : UInt64}

/-- The digest after sliding `bytes` into a window just reset. -/
def rabinDigest (bytes : List UInt8) : RabinWindow := bytes.foldl RabinWindow.rabinSlide .rabinReset

/-- The scanning loop's test after `n` bytes of `l`. -/
def rabinStop (min max : ℕ) (mask : UInt64) (l : List UInt8) (n : ℕ) : Prop :=
  (min ≤ n ∧ (rabinDigest (l.take n)).digest &&& mask = 0) ∨ max ≤ n

instance (min max : ℕ) (mask : UInt64) (l : List UInt8) (n : ℕ) :
    Decidable (rabinStop min max mask l n) :=
  inferInstanceAs (Decidable (_ ∨ _))

/-- **The rule of the scanning loop**: with more than `min` bytes left, cut at the first position
at which the test holds. -/
def RabinCut (min max : ℕ) (mask : UInt64) (l : List UInt8) (n : ℕ) : Prop :=
  min < l.length ∧ 0 < n ∧ n ≤ l.length ∧ rabinStop min max mask l n ∧
    ∀ i, 0 < i → i < n → ¬ rabinStop min max mask l i

/-- The length of the next chunk: a remainder of at most `min` bytes is one chunk. -/
def RabinPiece (min max : ℕ) (mask : UInt64) (l : List UInt8) (n : ℕ) : Prop :=
  (l.length ≤ min ∧ n = l.length) ∨ RabinCut min max mask l n

theorem RabinPiece.functional (l : List UInt8) (n m : ℕ) (_ : n ≤ l.length) (_ : m ≤ l.length)
    (hn : RabinPiece min max mask l n) (hm : RabinPiece min max mask l m) : n = m := by
  rcases hn with ⟨h1, rfl⟩ | ⟨h1, h2, -, h4, h5⟩ <;> rcases hm with ⟨g1, rfl⟩ | ⟨g1, g2, -, g4, g5⟩
  · rfl
  · omega
  · omega
  · rcases Nat.lt_trichotomy n m with h | h | h
    · exact absurd h4 (g5 n h2 h)
    · exact h
    · exact absurd g4 (h5 m g2 h)

theorem RabinCut.min_le {l : List UInt8} {n : ℕ} (hmm : min ≤ max) (h : RabinCut min max mask l n) :
    min ≤ n := by
  rcases h.2.2.2.1 with ⟨h, -⟩ | h <;> omega

theorem RabinPiece.le_max {l : List UInt8} {n : ℕ} (hmin : 1 ≤ min) (hmm : min ≤ max)
    (h : RabinPiece min max mask l n) : n ≤ max := by
  rcases h with ⟨h1, rfl⟩ | h
  · omega
  · by_contra hc
    exact h.2.2.2.2 max (by omega) (by omega) (.inr le_rfl)

/-- Pieces that leave something are all cut by the scanning loop. -/
theorem rabinCuts_of_rest {l r : List UInt8} {ps : List (List UInt8)}
    (h : Chop (RabinPiece min max mask) l ps r) (hr : r ≠ []) : Chop (RabinCut min max mask) l ps r := by
  induction h with
  | done l => exact .done l
  | @cut l n ps r pos le ok rest ih =>
    rcases ok with ⟨-, rfl⟩ | ok
    · rw [List.drop_length] at rest
      exact absurd rest.of_nil.2 hr
    · exact .cut pos le ok (ih hr)

/-- Pieces that use the list up are the scanning loop's, then perhaps a short remainder. -/
theorem rabinCuts_of_all {l r : List UInt8} {ps : List (List UInt8)}
    (h : Chop (RabinPiece min max mask) l ps r) (hr : r = []) :
    ∃ qs q, Chop (RabinCut min max mask) l qs q ∧ q.length ≤ min ∧ (ps = qs ∨ ps = qs ++ [q]) := by
  induction h with
  | done l => exact ⟨[], l, .done l, by simp [hr], .inl rfl⟩
  | @cut l n ps r pos le ok rest ih =>
    rcases ok with ⟨hle, rfl⟩ | ok
    · rw [List.drop_length] at rest
      obtain rfl := rest.of_nil.1
      exact ⟨[], l, .done l, hle, .inr (by simp)⟩
    · obtain ⟨qs, q, hc, hq, hps⟩ := ih hr
      exact ⟨l.take n :: qs, q, .cut pos le ok hc, hq, by rcases hps with rfl | rfl <;> simp⟩

/-! ## The scanning loop and one call -/

/-- What the loop sees after `n` bytes of the chunk that starts at `start`. -/
def rabinAt (mem : List UInt8) (start n : ℕ) : RabinScan :=
  ⟨n + 1, start + n, rabinDigest ((mem.drop start).take n)⟩

theorem rabinAt_read (mem : List UInt8) (start n : ℕ) (h : start + n < mem.length) :
    ∃ b, mem[start + n]? = some b ∧ rabinDigest ((mem.drop start).take (n + 1)) =
      (rabinDigest ((mem.drop start).take n)).rabinSlide b := by
  have hn : n < (mem.drop start).length := by rw [List.length_drop]; omega
  refine ⟨(mem.drop start)[n], ?_, ?_⟩
  · rw [List.getElem_drop]; exact List.getElem?_eq_getElem _
  · rw [List.take_add_one, List.getElem?_eq_getElem hn]
    simp [rabinDigest]

theorem stopHere_iff (s : RabinCDC) (l : List UInt8) (n : ℕ) :
    s.stopHere n (rabinDigest (l.take n)).digest = true ↔
      rabinStop s.minChunkSize s.maxChunkSize s.rabinStopMask l n := by
  simp [RabinCDC.stopHere, rabinStop]

/-- **What the scanning loop returns** after `k` rounds from byte `n` on. -/
theorem scanLoop_cases (s : RabinCDC) (start : ℕ) :
    ∀ k n, n + k ≤ s.file.mapped.length - start →
      (∃ m, n < m ∧ m ≤ n + k ∧
        rabinStop s.minChunkSize s.maxChunkSize s.rabinStopMask (s.file.mapped.drop start) m ∧
        (∀ i, n < i → i < m →
          ¬ rabinStop s.minChunkSize s.maxChunkSize s.rabinStopMask (s.file.mapped.drop start) i) ∧
        s.scanLoop k (rabinAt s.file.mapped start n) =
          some (true, { rabinAt s.file.mapped start m with chunkSize := m })) ∨
      ((∀ i, n < i → i ≤ n + k →
          ¬ rabinStop s.minChunkSize s.maxChunkSize s.rabinStopMask (s.file.mapped.drop start) i) ∧
        s.scanLoop k (rabinAt s.file.mapped start n) =
          some (false, rabinAt s.file.mapped start (n + k))) := by
  refine scan_cases (fun _ => rfl) fun k n h => ?_
  obtain ⟨b, hb, hp⟩ := rabinAt_read s.file.mapped start n (by omega)
  have htest := stopHere_iff s (s.file.mapped.drop start) (n + 1)
  simp only [rabinAt, RabinCDC.scanLoop, hb, Option.bind_eq_bind, Option.bind_some, ← hp]
  exact if_congr htest rfl rfl

/-- **`GetNextChunk` returns a short remainder** whole. -/
theorem rabin_short {s : RabinCDC} (hcur : s.fileReadPtr + s.remainingFileLen = s.file.mapped.length)
    (hpos : s.remainingFileLen ≠ 0) (hle : s.remainingFileLen ≤ s.minChunkSize) :
    s.getNextChunk =
      some (some ⟨shown ((s.file.mapped.drop s.fileReadPtr).take s.remainingFileLen), s.nextChunkId⟩,
        { s with remainingFileLen := 0, nextChunkId := nextId s.nextChunkId }) := by
  unfold RabinCDC.getNextChunk
  rw [if_neg hpos, if_pos hle, fromMemoryRef_shown hcur.le]
  rfl

/-- **`GetNextChunk` scans** when more than `min` bytes are left: up to the first position at which the test
holds, or off the end of the file. -/
theorem rabin_scan {s : RabinCDC} (hcur : s.fileReadPtr + s.remainingFileLen = s.file.mapped.length)
    (hwin : s.win = .rabinReset) (hlt : s.minChunkSize < s.remainingFileLen) :
    (∃ m, 0 < m ∧ m ≤ s.remainingFileLen ∧
      rabinStop s.minChunkSize s.maxChunkSize s.rabinStopMask (s.file.mapped.drop s.fileReadPtr) m ∧
      (∀ i, 0 < i → i < m →
        ¬ rabinStop s.minChunkSize s.maxChunkSize s.rabinStopMask (s.file.mapped.drop s.fileReadPtr) i) ∧
      s.getNextChunk = some (some ⟨shown ((s.file.mapped.drop s.fileReadPtr).take m), s.nextChunkId⟩, { s with
        win := .rabinReset
        fileReadPtr := s.fileReadPtr + m
        remainingFileLen := s.remainingFileLen - m
        nextChunkId := nextId s.nextChunkId })) ∨
    ((∀ i, 0 < i → i ≤ s.remainingFileLen →
        ¬ rabinStop s.minChunkSize s.maxChunkSize s.rabinStopMask (s.file.mapped.drop s.fileReadPtr) i) ∧
      ∃ win, s.getNextChunk = some (none, { s with win, fileReadPtr := s.file.mapped.length })) := by
  have hscan : (⟨1, s.fileReadPtr, s.win⟩ : RabinScan) = rabinAt s.file.mapped s.fileReadPtr 0 := by
    rw [hwin]
    rfl
  rcases scanLoop_cases s s.fileReadPtr s.remainingFileLen 0 (by omega) with
    ⟨m, hm, hle, hstop, hfirst, hloop⟩ | ⟨hno, hloop⟩
  · rw [Nat.zero_add] at hle
    refine .inl ⟨m, hm, hle, hstop, hfirst, ?_⟩
    unfold RabinCDC.getNextChunk
    rw [if_neg (by omega), if_neg (by omega), hscan, hloop]
    simp only [Option.bind_eq_bind, Option.bind_some, if_true]
    rw [fromMemoryRef_shown (by omega)]
    rfl
  · -- the loop ran off the end of the file
    rw [Nat.zero_add] at hno
    refine .inr ⟨hno, (rabinAt s.file.mapped s.fileReadPtr (0 + s.remainingFileLen)).win, ?_⟩
    unfold RabinCDC.getNextChunk
    rw [if_neg (by omega), if_neg (by omega), hscan, hloop]
    simp only [Option.bind_eq_bind, Option.bind_some, Bool.false_eq_true, if_false, Nat.zero_add]
    rw [← hcur]
    rfl

/-- What is left of the file. -/
def RabinCDC.rest (s : RabinCDC) : List UInt8 :=
  if s.remainingFileLen = 0 then [] else s.file.mapped.drop s.fileReadPtr

/-- Unless nothing is left, the cursor is at the rest of the mapping and the window is reset. -/
structure RabinOK (min max : ℕ) (mask : UInt64) (s : RabinCDC) : Prop where
  min : s.minChunkSize = min
  max : s.maxChunkSize = max
  mask : s.rabinStopMask = mask
  cursor : s.remainingFileLen = 0 ∨
    (s.fileReadPtr + s.remainingFileLen = s.file.mapped.length ∧ s.win = .rabinReset)

theorem RabinOK.length_rest {s : RabinCDC} (h : RabinOK min max mask s) :
    s.rest.length = s.remainingFileLen := by
  unfold RabinCDC.rest
  split
  · simp [*]
  · rw [List.length_drop]
    rcases h.cursor with h | ⟨h, -⟩ <;> omega

/-- Where the drain stops: at the end of the file, or before more than `min` bytes without a cut. -/
def RabinCDC.stuck (s : RabinCDC) : Prop :=
  s.rest = [] ∨ (s.minChunkSize < s.rest.length ∧ ∀ n, 0 < n → n ≤ s.rest.length →
    ¬ rabinStop s.minChunkSize s.maxChunkSize s.rabinStopMask s.rest n)

/-- **One `GetNextChunk`.** -/
theorem rabin_step {s : RabinCDC} (hs : RabinOK min max mask s) :
    StepOK RabinCDC.rest (RabinOK min max mask) RabinCDC.stuck (RabinPiece min max mask) s := by
  rcases Nat.eq_zero_or_pos s.remainingFileLen with h0 | hpos
  · exact .inl ⟨.inl (by simp [RabinCDC.rest, h0]), s,
      by simp [Chunker.getNextChunk, RabinCDC.getNextChunk, h0], rfl⟩
  obtain ⟨hcur, hwin⟩ := hs.cursor.resolve_left (by omega)
  have hrest : s.rest = s.file.mapped.drop s.fileReadPtr := by
    unfold RabinCDC.rest; rw [if_neg (by omega)]
  have hlen := hs.length_rest
  by_cases hle : s.remainingFileLen ≤ min
  · right
    refine ⟨s.remainingFileLen, { s with remainingFileLen := 0, nextChunkId := nextId s.nextChunkId },
      hpos, hlen.ge, .inl ⟨by omega, hlen.symm⟩, ?_, ⟨hs.min, hs.max, hs.mask, .inl rfl⟩, ?_, rfl⟩
    · rw [hrest]
      exact rabin_short hcur hpos.ne' (by rw [hs.min]; exact hle)
    · rw [← hlen, List.drop_length]; rfl
  · rcases rabin_scan hcur hwin (by rw [hs.min]; omega) with ⟨m, hm, hmle, hstop, hfirst, hget⟩ | ⟨hno, win, hget⟩
    · rw [hs.min, hs.max, hs.mask, ← hrest] at hstop hfirst
      rw [← hrest] at hget
      refine .inr ⟨m, _, hm, by omega, .inr ⟨by omega, hm, by omega, hstop, hfirst⟩, hget,
        ⟨hs.min, hs.max, hs.mask, .inr ⟨by simp only; omega, rfl⟩⟩, ?_, rfl⟩
      rw [hrest, List.drop_drop]
      unfold RabinCDC.rest
      simp only
      split
      · rw [List.drop_eq_nil_of_le (by omega)]
      · rfl
    · rw [← hrest, ← hlen] at hno
      exact .inl ⟨.inr ⟨by rw [hs.min]; omega, hno⟩, _, hget, rfl⟩

/-! ## Draining one file -/

/-- `ReinitWithFile` and the drain return every byte of `content`, in chunks of the right sizes. -/
def RabinLossless (min max : ℕ) (mask : UInt64) (junk : RabinWindow) (content : List UInt8) : Prop :=
  ∃ cs s', drainFile (some content) (RabinCDC.new min max mask junk) = some (cs, s') ∧
    (cs.map Chunk.buf).flatten = content ∧ (∀ c ∈ cs, 0 < c.len ∧ c.len ≤ max) ∧
    ∀ c ∈ cs.dropLast, min ≤ c.len

/-- Cutting `content` by the rule of the scanning loop, as far as one likes, never leaves more than
`min` bytes without a cut position, and never a piece of `2^31` bytes or more. -/
def RabinCutsToEnd (min max : ℕ) (mask : UInt64) (content : List UInt8) : Prop :=
  ∀ ps r, Chop (RabinCut min max mask) content ps r →
    (∀ p ∈ ps, p.length < 2 ^ 31) ∧ (r.length ≤ min → r.length < 2 ^ 31) ∧
      (min < r.length → ∃ n, 0 < n ∧ n ≤ r.length ∧ rabinStop min max mask r n)

/-- `ReinitWithFile` of a file that is not empty: its first byte is next, and the window is reset. -/
theorem reinitWithFile_some {content : List UInt8} (hne : content.length ≠ 0) (s : RabinCDC) :
    s.reinitWithFile (some content) = (true, { s with
      win := .rabinReset
      file := ⟨content⟩
      fileReadPtr := 0
      remainingFileLen := content.length }) := by
  have hopen : MappedFile.open (some content) = ⟨content⟩ := if_neg hne
  have hmap : (MappedFile.mk content).mapSuccess = true := decide_eq_true hne
  unfold RabinCDC.reinitWithFile
  rw [hopen]
  simp only [hmap, Bool.not_true, Bool.false_eq_true, if_false]
  rfl

/-- **A failed `ReinitWithFile`** replaces the mapping, and leaves the cursor as it was. -/
theorem reinitWithFile_failed {content : FileContent} (h : (MappedFile.open content).mapSuccess = false)
    (s : RabinCDC) : s.reinitWithFile content = (false, { s with win := .rabinReset, file := {} }) := by
  have hempty : MappedFile.open content = {} := by
    have hlen : (MappedFile.open content).len = 0 := by
      by_contra hne
      exact absurd ((decide_eq_true hne).symm.trans h) (by decide)
    cases hopen : MappedFile.open content with
    | mk mapped =>
      rw [hopen] at hlen
      have hnil : mapped = [] := List.length_eq_zero_iff.1 hlen
      rw [hnil]
  unfold RabinCDC.reinitWithFile
  simp only [h, Bool.not_false, if_true]
  rw [hempty]

theorem reinitWithFile_result (content : FileContent) (s : RabinCDC) :
    (s.reinitWithFile content).1 = (MappedFile.open content).mapSuccess := by
  unfold RabinCDC.reinitWithFile
  simp only
  split <;> simp_all

/-- Whatever was drained before, a file that is not empty is what is left. -/
theorem rabinOK_reinit {s : RabinCDC} (hmin : s.minChunkSize = min) (hmax : s.maxChunkSize = max)
    (hmask : s.rabinStopMask = mask) {content : List UInt8} (hne : content.length ≠ 0) :
    RabinOK min max mask (Chunker.reinitWithFile (some content) s).2 ∧
      RabinCDC.rest (Chunker.reinitWithFile (some content) s).2 = content := by
  have hreinit : Chunker.reinitWithFile (some content) s = _ := reinitWithFile_some hne s
  rw [hreinit]
  refine ⟨⟨hmin, hmax, hmask, .inr ⟨Nat.zero_add _, rfl⟩⟩, ?_⟩
  unfold RabinCDC.rest
  rw [if_neg hne]
  rfl

theorem rabin_reinit (min max : ℕ) (mask : UInt64) (junk : RabinWindow) (content : List UInt8) :
    RabinOK min max mask (Chunker.reinitWithFile (some content) (RabinCDC.new min max mask junk)).2 ∧
      RabinCDC.rest (Chunker.reinitWithFile (some content) (RabinCDC.new min max mask junk)).2 =
        content := by
  by_cases he : content.length = 0
  · obtain rfl := List.length_eq_zero_iff.1 he
    exact ⟨⟨rfl, rfl, rfl, .inl rfl⟩, rfl⟩
  · exact rabinOK_reinit (s := .new min max mask junk) rfl rfl rfl he

/-- **The drain of a file**: its pieces follow the rule, up to where the chunker gets stuck. -/
theorem drainFile_rabin (min max : ℕ) (mask : UInt64) (junk : RabinWindow) (content : List UInt8) :
    ∃ cs s' ps r, drainFile (some content) (RabinCDC.new min max mask junk) = some (cs, s') ∧
      Chop (RabinPiece min max mask) content ps r ∧ cs.map Chunk.buf = ps.map shown ∧
      (r = [] ∨ (min < r.length ∧ ∀ n, 0 < n → n ≤ r.length → ¬ rabinStop min max mask r n)) := by
  obtain ⟨h1, h2⟩ := rabin_reinit min max mask junk content
  obtain ⟨cs, s', ps, last, hd, h⟩ := drain_ok (fun _ => rabin_step) h1 h1.length_rest.le
  refine ⟨cs, s', ps, last.rest, hd, h2 ▸ h.chop, h.bytes, ?_⟩
  have hst := h.stop_last
  unfold RabinCDC.stuck at hst
  rw [h.inv_last.min, h.inv_last.max, h.inv_last.mask] at hst
  exact hst

/-- Where the rule cuts to the end, the drain returns everything. -/
theorem rabin_lossless_of_cuts (hmin : 1 ≤ min) (hmm : min ≤ max) {junk : RabinWindow}
    {content : List UInt8} (hc : RabinCutsToEnd min max mask content) :
    RabinLossless min max mask junk content := by
  obtain ⟨cs, s', ps, r, hd, hchop, hbytes, hr⟩ := drainFile_rabin min max mask junk content
  have hr : r = [] := by
    rcases hr with hr | ⟨hlt, hno⟩
    · exact hr
    · have hne : r ≠ [] := by rintro rfl; simp at hlt
      obtain ⟨n, h1, h2, h3⟩ := (hc ps r (rabinCuts_of_rest hchop hne)).2.2 hlt
      exact absurd h3 (hno n h1 h2)
  subst hr
  have hlt : ∀ p ∈ ps, p.length < 2 ^ 31 := by
    obtain ⟨qs, q, hqs, hq, hps⟩ := rabinCuts_of_all hchop rfl
    obtain ⟨h1, h2, -⟩ := hc qs q hqs
    rcases hps with rfl | rfl
    · exact h1
    · intro p hp
      rcases List.mem_append.1 hp with hp | hp
      · exact h1 p hp
      · rw [List.mem_singleton.1 hp]; exact h2 hq
  rw [map_shown_eq hlt] at hbytes
  have hflat := hchop.flatten
  rw [List.append_nil] at hflat
  have hsize : ∀ p ∈ ps, 0 < p.length ∧ p.length ≤ max :=
    hchop.forall_of fun l n h0 hn hP => by
      have := hP.le_max hmin hmm
      rw [List.length_take]; omega
  have hlast : ∀ p ∈ ps.dropLast, min ≤ p.length :=
    hchop.dropLast_of fun l n h0 hn hP => by
      rcases hP with ⟨-, rfl⟩ | hP
      · omega
      · have := hP.min_le hmm
        rw [List.length_take]; omega
  refine ⟨cs, s', hd, by rw [hbytes, hflat], ?_, ?_⟩
  · intro c hcm
    exact hsize _ (hbytes ▸ List.mem_map_of_mem hcm)
  · intro c hcm
    apply hlast
    rw [← hbytes, ← List.map_dropLast]
    exact List.mem_map_of_mem hcm

/-- A drain that returns everything has cut to the end. -/
theorem rabin_cuts_of_lossless {junk : RabinWindow} {content : List UInt8}
    (hl : RabinLossless min max mask junk content) : RabinCutsToEnd min max mask content := by
  obtain ⟨cs, s', hd, hflat, -, -⟩ := hl
  obtain ⟨cs', s'', ps, r, hd', hchop, hbytes, -⟩ := drainFile_rabin min max mask junk content
  rw [hd, Option.some.injEq, Prod.mk.injEq] at hd'
  obtain ⟨rfl, rfl⟩ := hd'
  -- every piece shows all its bytes and nothing is left
  have hcount := congrArg List.length (hflat.trans hchop.flatten.symm)
  rw [hbytes, List.length_append] at hcount
  have hle : (ps.map shown).flatten.length ≤ ps.flatten.length := length_flatten_shown_le ps
  have hlt : ∀ p ∈ ps, p.length < 2 ^ 31 := shown_flatten (by omega)
  obtain rfl : r = [] := List.length_eq_zero_iff.1 (by omega)
  intro qs q hqs
  have hqs' : Chop (RabinPiece min max mask) content qs q := hqs.mono fun _ _ => .inr
  obtain ⟨ts, rfl, hts⟩ := hqs'.prefix_of RabinPiece.functional hchop
  refine ⟨fun p hp => hlt p (List.mem_append_left _ hp), ?_, ?_⟩
  · intro hq
    cases hts with
    | done => simp
    | @cut _ n _ _ _ _ ok _ =>
      rcases ok with ⟨-, rfl⟩ | ok
      · simpa using hlt (q.take q.length) (by simp)
      · exact absurd ok.1 (by omega)
  · intro hq
    cases hts with
    | done => simp at hq
    | @cut _ n _ _ pos le ok _ =>
      rcases ok with ⟨h, -⟩ | ok
      · omega
      · exact ⟨n, pos, le, ok.2.2.2.1⟩

/-- **When `RabinCDC` loses no byte of a file.** -/
theorem rabin_lossless_iff (hmin : 1 ≤ min) (hmm : min ≤ max) (mask : UInt64) (junk : RabinWindow)
    (content : List UInt8) :
    RabinLossless min max mask junk content ↔ RabinCutsToEnd min max mask content :=
  ⟨rabin_cuts_of_lossless, rabin_lossless_of_cuts hmin hmm⟩

/-- Three bytes without a cut position, from two bytes on. -/
theorem not_rabinStop_three (n : ℕ) (hpos : 0 < n) (hle : n ≤ 3) : ¬ rabinStop 2 8 8191 [1, 2, 3] n := by
  have hall : ∀ n < 4, 0 < n → ¬ rabinStop 2 8 8191 [1, 2, 3] n := by decide +kernel
  exact hall n (Nat.lt_succ_of_le hle) hpos

/-- Five bytes that are cut after three, and whose rest is a chunk. -/
theorem rabinCutsToEnd_five : RabinCutsToEnd 2 8 3 [3, 1, 4, 1, 5] := by
  intro ps r h
  cases h with
  | done =>
    exact ⟨by simp, fun _ => by decide, fun _ => ⟨3, by decide, by decide, by decide +kernel⟩⟩
  | @cut _ n _ _ _ hle hcut hrest =>
    have hearlier : ∀ i < 3, 0 < i → ¬ rabinStop 2 8 3 [3, 1, 4, 1, 5] i := by decide +kernel
    have hthree : RabinCut 2 8 3 [3, 1, 4, 1, 5] 3 :=
      ⟨by decide, by decide, by decide, by decide +kernel, fun i h0 hi => hearlier i hi h0⟩
    obtain rfl := RabinPiece.functional _ n 3 hle (by decide) (.inr hcut) (.inr hthree)
    -- two bytes are left, which is not more than the minimum
    cases hrest with
    | done => exact ⟨by simp, fun _ => by decide, fun hlt => absurd hlt (by decide)⟩
    | cut _ _ hcut' _ => exact absurd hcut'.1 (by decide)

/-- One file that is cut to its end, and one that is not. -/
theorem rabin_lossless_iff_small :
    RabinLossless 2 8 3 ⟨[], 0, 0⟩ [3, 1, 4, 1, 5] ∧ ¬ RabinLossless 2 8 8191 ⟨[], 0, 0⟩ [1, 2, 3] := by
  constructor
  · exact (rabin_lossless_iff (by decide) (by decide) _ _ _).2 rabinCutsToEnd_five
  · intro hl
    have hcuts := (rabin_lossless_iff (by decide) (by decide) _ _ _).1 hl
    obtain ⟨n, hpos, hle, hstop⟩ := (hcuts [] [1, 2, 3] (.done _)).2.2 (by decide)
    exact not_rabinStop_three n hpos hle hstop

/-- Three bytes with a minimum of two, a maximum of eight and no cut position: the drain returns
no chunk at all. -/
theorem rabin_drops_tail :
    ¬ ∀ (min max : ℕ) (mask : UInt64) (junk : RabinWindow) (content : List UInt8),
      1 ≤ min → min ≤ max → RabinLossless min max mask junk content := by
  intro h
  have hcuts := rabin_cuts_of_lossless (h 2 8 8191 ⟨[], 0, 0⟩ [1, 2, 3] (by decide) (by decide))
  -- before the first cut, three bytes are left
  obtain ⟨-, -, hcut⟩ := hcuts [] [1, 2, 3] (.done _)
  obtain ⟨n, hpos, hle, hstop⟩ := hcut (by decide)
  exact not_rabinStop_three n hpos hle hstop

end ChunkGrouping
