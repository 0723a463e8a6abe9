import ChunkGrouping.Proof.Drain
import ChunkGrouping.Model.FastCDC

/-!
# `FastCDC` partitions every file

`FastCut` is the chunker's rule: how long the next chunk is, given what is left of
the file. The two loops of `GetNextChunk` compute it (`minLoop_eq`,
`cutLoop_cases`), so one call cuts off a piece `FastCut` allows (`fast_step`), and
a drain chops the file by `FastCut` (`drainFile_fast`). The state a drain leaves
has nothing left to read, which is what makes a failed `ReinitWithFile` harmless.

* `drainFiles_fast`: over any sequence of files, mappable or not, each drain ends,
  loses no byte and cuts where the rule says; ids are consecutive modulo `2^32`.
-/

namespace ChunkGrouping

open Cutting

variable {min max : ℕ} {mask : UInt64}

/-- The cut test after `n` bytes of `l`. -/
def fastStop (mask : UInt64) (l : List UInt8) (n : ℕ) : Prop := gearPrint (l.take n) &&& mask = 0

instance (mask : UInt64) (l : List UInt8) (n : ℕ) : Decidable (fastStop mask l n) :=
  inferInstanceAs (Decidable (gearPrint (l.take n) &&& mask = 0))

/-- `n` is the least length above `min` at which the cut test holds, or `max` if there is none up
to it. -/
def FastBoundary (min max : ℕ) (mask : UInt64) (l : List UInt8) (n : ℕ) : Prop :=
  (min < n ∧ n ≤ max ∧ fastStop mask l n ∧ ∀ i, min < i → i < n → ¬ fastStop mask l i) ∨
  (n = max ∧ ∀ i, min < i → i ≤ max → ¬ fastStop mask l i)

/-- **The rule of `FastCDC`**: the length of the next chunk when `l` is left. -/
def FastCut (min max : ℕ) (mask : UInt64) (l : List UInt8) (n : ℕ) : Prop :=
  (l.length ≤ min ∧ n = l.length) ∨
  (min < l.length ∧ (FastBoundary min max mask l n ∨
    (n = l.length ∧ n < max ∧ ∀ i, min < i → i ≤ n → ¬ fastStop mask l i)))

theorem fastStop_take {l : List UInt8} {i n : ℕ} (h : i ≤ n) :
    fastStop mask (l.take n) i ↔ fastStop mask l i := by
  unfold fastStop; rw [List.take_take, min_eq_left h]

/-- The boundary of what is left is a boundary of the chunk itself. -/
theorem FastBoundary.take {l : List UInt8} {n : ℕ} (h : FastBoundary min max mask l n) :
    FastBoundary min max mask (l.take n) n := by
  rcases h with ⟨h1, h2, h3, h4⟩ | ⟨h1, h2⟩
  · exact .inl ⟨h1, h2, (fastStop_take le_rfl).2 h3,
      fun i hi hn hs => h4 i hi hn ((fastStop_take hn.le).1 hs)⟩
  · exact .inr ⟨h1, fun i hi hn hs => h2 i hi hn ((fastStop_take (by omega)).1 hs)⟩

theorem FastBoundary.le {l : List UInt8} {n : ℕ} (hmm : min ≤ max)
    (h : FastBoundary min max mask l n) : min ≤ n ∧ n ≤ max := by
  rcases h with ⟨h1, h2, -, -⟩ | ⟨h1, -⟩ <;> omega

/-- A piece that does not end the file is at a boundary. -/
theorem FastCut.boundary {l : List UInt8} {n : ℕ} (h : FastCut min max mask l n) (hn : n < l.length) :
    FastBoundary min max mask l n := by
  rcases h with ⟨-, rfl⟩ | ⟨-, h | ⟨rfl, -, -⟩⟩
  · omega
  · exact h
  · omega

theorem FastCut.le_max {l : List UInt8} {n : ℕ} (hmm : min ≤ max) (h : FastCut min max mask l n) :
    n ≤ max := by
  rcases h with ⟨h1, rfl⟩ | ⟨-, h | ⟨-, h, -⟩⟩
  · omega
  · exact (h.le hmm).2
  · exact h.le

/-! ## The two loops of `GetNextChunk` -/

theorem gearPrint_take_succ {l : List UInt8} {n : ℕ} (h : n < l.length) :
    gearPrint (l.take (n + 1)) = gearStep (gearPrint (l.take n)) l[n] := by
  rw [List.take_add_one, List.getElem?_eq_getElem h, Option.toList_some, gearPrint_concat]

/-- What the loops see after `n` bytes of the chunk that starts at `start`. -/
def scanAt (mem : List UInt8) (start n : ℕ) : FastScan :=
  ⟨n + 1, start + n, gearPrint ((mem.drop start).take n)⟩

theorem scanAt_read (mem : List UInt8) (start n : ℕ) (h : start + n < mem.length) :
    ∃ b, mem[start + n]? = some b ∧
      gearPrint ((mem.drop start).take (n + 1)) = gearStep (gearPrint ((mem.drop start).take n)) b := by
  have hn : n < (mem.drop start).length := by rw [List.length_drop]; omega
  refine ⟨(mem.drop start)[n], ?_, gearPrint_take_succ hn⟩
  rw [List.getElem_drop]; exact List.getElem?_eq_getElem _

theorem minLoop_eq (mem : List UInt8) (start : ℕ) :
    ∀ k n, start + n + k ≤ mem.length → n + k < 2 ^ 31 - 1 →
      FastCDC.minLoop mem k (scanAt mem start n) = some (scanAt mem start (n + k)) := by
  intro k
  induction k with
  | zero => intro n _ _; rfl
  | succ k ih =>
    intro n h hint
    obtain ⟨b, hb, hp⟩ := scanAt_read mem start n (by omega)
    have := ih (n + 1) (by omega) (by omega)
    have hsize : FastCDC.nextSize (n + 1) = some (n + 1 + 1) := FastCDC.nextSize_of_lt (by omega)
    simp only [scanAt, FastCDC.minLoop, hb, hsize, Option.bind_eq_bind, Option.bind_some] at this ⊢
    rw [← hp, add_assoc start n 1, this, show n + 1 + k = n + (k + 1) by omega]

/-- **What the cutting loop returns** after `k` rounds from byte `n` on: the first cut position
in reach, or its end. -/
theorem cutLoop_cases (mask : UInt64) (mem : List UInt8) (start : ℕ) :
    ∀ k n, n + k ≤ Nat.min (mem.length - start) (2 ^ 31 - 2) →
      (∃ m, n < m ∧ m ≤ n + k ∧ fastStop mask (mem.drop start) m ∧
        (∀ i, n < i → i < m → ¬ fastStop mask (mem.drop start) i) ∧
        FastCDC.cutLoop mem mask k (scanAt mem start n) =
          some (true, { scanAt mem start m with chunkSize := m })) ∨
      ((∀ i, n < i → i ≤ n + k → ¬ fastStop mask (mem.drop start) i) ∧
        FastCDC.cutLoop mem mask k (scanAt mem start n) = some (false, scanAt mem start (n + k))) := by
  -- the positions in reach are in the mapping, and `chunk_size` can count them
  refine scan_cases (fun _ => rfl) fun k n h => ?_
  obtain ⟨hmem, hint⟩ := Nat.lt_min.1 h
  obtain ⟨b, hb, hp⟩ := scanAt_read mem start n (by omega)
  have hsize : FastCDC.nextSize (n + 1) = some (n + 1 + 1) := FastCDC.nextSize_of_lt (by omega)
  simp only [scanAt, FastCDC.cutLoop, hb, hsize, Option.bind_eq_bind, Option.bind_some, ← hp, fastStop]
  rfl

/-! ## One call, one drain -/

/-- What is left of the file. -/
def FastCDC.rest (s : FastCDC) : List UInt8 :=
  if s.remainingFileLen = 0 then [] else s.file.mapped.drop s.fileReadPtr

/-- **The cursor invariant**: unless nothing is left, `remaining_file_len` bytes are left from the
read pointer to the end of the current mapping. -/
structure FastOK (min max : ℕ) (mask : UInt64) (s : FastCDC) : Prop where
  min : s.minChunkSize = min
  max : s.maxChunkSize = max
  mask : s.mask = mask
  cursor : s.remainingFileLen = 0 ∨ s.fileReadPtr + s.remainingFileLen = s.file.mapped.length
  id_lt : s.nextChunkId < 2 ^ 32

theorem FastOK.length_rest {s : FastCDC} (h : FastOK min max mask s) :
    s.rest.length = s.remainingFileLen := by
  unfold FastCDC.rest
  split
  · simp [*]
  · rw [List.length_drop]; have := h.cursor; omega

theorem FastOK.new (min max : ℕ) (mask : UInt64) : FastOK min max mask (.new min max mask) :=
  ⟨rfl, rfl, rfl, .inl rfl, by show 0 < 2 ^ 32; omega⟩

theorem nextId_lt (n : ℕ) : nextId n < 2 ^ 32 := Nat.mod_lt _ (by omega)

/-- **One `GetNextChunk`** returns `nullptr` with nothing left, or the piece `FastCut` names. -/
theorem fast_step (hpos : 1 ≤ max) (hmm : min ≤ max) (hmax : max < 2 ^ 31 - 1) {s : FastCDC}
    (hs : FastOK min max mask s) :
    StepOK FastCDC.rest (FastOK min max mask) (fun s => s.remainingFileLen = 0) (FastCut min max mask) s := by
  rcases Nat.eq_zero_or_pos s.remainingFileLen with h0 | hleft
  · exact .inl ⟨h0, s, by simp [Chunker.getNextChunk, FastCDC.getNextChunk, h0], rfl⟩
  have hcur : s.fileReadPtr + s.remainingFileLen = s.file.mapped.length :=
    hs.cursor.resolve_left (by omega)
  have hrest : s.rest = s.file.mapped.drop s.fileReadPtr := by
    unfold FastCDC.rest; rw [if_neg (by omega)]
  have hlen := hs.length_rest
  right
  by_cases hle : s.remainingFileLen ≤ min
  · -- a short remainder
    refine ⟨s.remainingFileLen, { s with remainingFileLen := 0, nextChunkId := nextId s.nextChunkId },
      hleft, hlen.ge, .inl ⟨by omega, hlen.symm⟩, ?_, ?_, ?_, rfl⟩
    · simp only [Chunker.getNextChunk, FastCDC.getNextChunk, hs.min]
      rw [if_neg (by omega), if_pos hle, fromMemoryRef_shown hcur.le, hrest]
      rfl
    · exact ⟨hs.min, hs.max, hs.mask, .inl rfl, nextId_lt _⟩
    · rw [← hlen, List.drop_length]; rfl
  · -- the scan: `min` bytes without a test, then up to the bound with one
    have hmask : s.mask = mask := hs.mask
    have hscan : (⟨1, s.fileReadPtr, 0⟩ : FastScan) = scanAt s.file.mapped s.fileReadPtr 0 := rfl
    have h1 := minLoop_eq s.file.mapped s.fileReadPtr min 0 (by omega) (by omega)
    rw [Nat.zero_add] at h1
    set bound := Nat.min s.remainingFileLen max with hb
    have hb1 : bound ≤ s.remainingFileLen := Nat.min_le_left _ _
    have hb2 : bound ≤ max := Nat.min_le_right _ _
    have hb3 : min ≤ bound := Nat.le_min.2 ⟨by omega, hmm⟩
    have hk : bound + 1 - (scanAt s.file.mapped s.fileReadPtr min).chunkSize = bound - min := by
      simp only [scanAt]; omega
    -- both ways out of the loop leave the state after `n` bytes of the chunk
    have hout : ∀ (n : ℕ) (found : Bool) (v : FastScan), 0 < n → n ≤ s.remainingFileLen →
        FastCut min max mask s.rest n →
        FastCDC.cutLoop s.file.mapped mask (bound - min) (scanAt s.file.mapped s.fileReadPtr min) =
          some (found, v) →
        (if found then v.chunkSize else v.chunkSize - 1) = n → v.fileReadPtr = s.fileReadPtr + n →
        ∃ n s', 0 < n ∧ n ≤ s.rest.length ∧ FastCut min max mask s.rest n ∧
          Chunker.getNextChunk s = some (some ⟨shown (s.rest.take n), Chunker.nextChunkId s⟩, s') ∧
          FastOK min max mask s' ∧ s'.rest = s.rest.drop n ∧
          Chunker.nextChunkId s' = nextId (Chunker.nextChunkId s) := by
      intro n found v hn0 hn hcut hloop hsz hptr
      refine ⟨n, { s with
        fileReadPtr := s.fileReadPtr + n
        remainingFileLen := s.remainingFileLen - n
        nextChunkId := nextId s.nextChunkId }, hn0, by omega, hcut, ?_, ?_, ?_, rfl⟩
      · simp only [Chunker.getNextChunk, FastCDC.getNextChunk, hs.min, hs.max, hmask]
        rw [if_neg (by omega), if_neg hle, hscan, h1]
        simp only [Option.bind_eq_bind, Option.bind_some]
        rw [show Min.min s.remainingFileLen max = bound from rfl, hk, hloop]
        simp only [Option.bind_some, hsz, hptr]
        rw [fromMemoryRef_shown (by omega), hrest]
        rfl
      · refine ⟨hs.min, hs.max, hs.mask, .inr ?_, nextId_lt _⟩
        simp only; omega
      · rw [hrest, List.drop_drop]
        unfold FastCDC.rest
        simp only
        split
        · rw [List.drop_eq_nil_of_le (by omega)]
        · rfl
    rcases cutLoop_cases mask s.file.mapped s.fileReadPtr (bound - min) min
      (Nat.le_min.2 ⟨by omega, by omega⟩) with ⟨m, hm1, hm2, hm3, hm4, hm5⟩ | ⟨hm1, hm2⟩
    · refine hout m true _ (by omega) (by omega) ?_ hm5 rfl rfl
      rw [← hrest] at hm3 hm4
      exact .inr ⟨by omega, .inl (.inl ⟨hm1, by omega, hm3, hm4⟩)⟩
    · rw [Nat.add_sub_cancel' hb3] at hm1 hm2
      refine hout bound false _ (Nat.lt_min.2 ⟨hleft, hpos⟩) hb1 ?_ hm2 rfl rfl
      rw [← hrest] at hm1
      refine .inr ⟨by omega, ?_⟩
      rcases Nat.lt_or_ge s.remainingFileLen max with hr | hr
      · have : bound = s.remainingFileLen := Nat.min_eq_left hr.le
        exact .inr ⟨by omega, by omega, hm1⟩
      · have : bound = max := Nat.min_eq_right hr
        exact .inl (.inr ⟨this, this ▸ hm1⟩)

/-- What the chunks of one file are to be, whatever the chunker's state when it is given the file. -/
structure FastFileOK (min max : ℕ) (mask : UInt64) (content : FileContent) (chunks : List Chunk) :
    Prop where
  bytes : (chunks.map Chunk.buf).flatten = (MappedFile.open content).mapped
  unmapped : ∀ s : FastCDC, (Chunker.reinitWithFile content s).1 = false → chunks = []
  pos : ∀ c ∈ chunks, 0 < c.len
  le_max : ∀ c ∈ chunks, c.len ≤ max
  boundary : ∀ c ∈ chunks.dropLast, min ≤ c.len ∧ c.len ≤ max ∧ FastBoundary min max mask c.buf c.len

theorem fast_reinit_result (content : FileContent) (s : FastCDC) :
    (Chunker.reinitWithFile content s).1 = (MappedFile.open content).mapSuccess := by
  simp only [Chunker.reinitWithFile, FastCDC.reinitWithFile]
  split <;> simp_all

/-- `ReinitWithFile` on a drained chunker sets up the file's bytes, or leaves nothing to read. -/
theorem fast_reinit {s : FastCDC} (hs : FastOK min max mask s) (h0 : s.remainingFileLen = 0)
    (content : FileContent) :
    FastOK min max mask (Chunker.reinitWithFile content s).2 ∧
      FastCDC.rest (Chunker.reinitWithFile content s).2 = (MappedFile.open content).mapped ∧
      Chunker.nextChunkId (Chunker.reinitWithFile content s).2 = s.nextChunkId := by
  simp only [Chunker.reinitWithFile, FastCDC.reinitWithFile, MappedFile.mapSuccess, MappedFile.len,
    Chunker.nextChunkId]
  by_cases he : (MappedFile.open content).mapped.length = 0
  · simp only [he, ne_eq, not_true_eq_false, decide_false, Bool.not_false, if_true]
    refine ⟨⟨hs.min, hs.max, hs.mask, .inl h0, hs.id_lt⟩, ?_, trivial⟩
    rw [List.length_eq_zero_iff.1 he]; simp [FastCDC.rest, h0]
  · simp only [he, ne_eq, not_false_eq_true, decide_true, Bool.not_true, Bool.false_eq_true, if_false]
    refine ⟨⟨hs.min, hs.max, hs.mask, .inr (by simp), hs.id_lt⟩, ?_, trivial⟩
    simp [FastCDC.rest, List.length_eq_zero_iff.not.1 he]

/-- **One file.** The drain ends, cuts the mapped bytes by `FastCut`, and leaves a drained chunker. -/
theorem drainFile_fast (hpos : 1 ≤ max) (hmm : min ≤ max) (hmax : max < 2 ^ 31 - 1) {s : FastCDC}
    (hs : FastOK min max mask s) (h0 : s.remainingFileLen = 0) (content : FileContent) :
    ∃ cs s', drainFile content s = some (cs, s') ∧
      Chop (FastCut min max mask) (MappedFile.open content).mapped (cs.map Chunk.buf) [] ∧
      cs.map Chunk.id = idsFrom s.nextChunkId cs.length ∧
      s'.nextChunkId = nextId^[cs.length] s.nextChunkId ∧
      FastOK min max mask s' ∧ s'.remainingFileLen = 0 := by
  obtain ⟨h1, h2, h3⟩ := fast_reinit hs h0 content
  obtain ⟨cs, s', ps, last, hd, h⟩ := drain_ok (fun _ => fast_step hpos hmm hmax) h1 h1.length_rest.le
  have hlast : last.rest = [] := by simp [FastCDC.rest, h.stop_last]
  have hs' : s' = last := by
    have := h.returns
    simp only [Chunker.getNextChunk, FastCDC.getNextChunk, h.stop_last, if_true, Option.some.injEq,
      Prod.mk.injEq, true_and] at this
    exact this.symm
  have hchop : Chop (FastCut min max mask) (MappedFile.open content).mapped ps [] := by
    rw [← h2, ← hlast]; exact h.chop
  have hlt : ∀ p ∈ ps, p.length < 2 ^ 31 := hchop.forall_of fun l n _ hn hP => by
    have := hP.le_max hmm
    rw [List.length_take]; omega
  have hids := h.ids
  have hnext := h.next
  rw [h3] at hids hnext
  refine ⟨cs, s', hd, ?_, hids, hnext, hs' ▸ h.inv_last, hs' ▸ h.stop_last⟩
  rw [h.bytes, map_shown_eq hlt]; exact hchop

/-- What a chop by `FastCut` says of the chunks. -/
theorem fastFileOK_of_chop (hmm : min ≤ max) {content : FileContent}
    {cs : List Chunk}
    (h : Chop (FastCut min max mask) (MappedFile.open content).mapped (cs.map Chunk.buf) []) :
    FastFileOK min max mask content cs := by
  have hflat := h.flatten
  rw [List.append_nil] at hflat
  have hpos : ∀ p ∈ cs.map Chunk.buf, 0 < p.length :=
    h.forall_of fun l n h0 hn _ => by rw [List.length_take]; omega
  have hmax : ∀ p ∈ cs.map Chunk.buf, p.length ≤ max :=
    h.forall_of fun l n h0 hn hP => by have := hP.le_max hmm; rw [List.length_take]; omega
  have hbd : ∀ p ∈ (cs.map Chunk.buf).dropLast,
      min ≤ p.length ∧ p.length ≤ max ∧ FastBoundary min max mask p p.length :=
    h.dropLast_of fun l n h0 hn hP => by
      have hb := hP.boundary hn
      have hl : (l.take n).length = n := by rw [List.length_take]; omega
      rw [hl]; exact ⟨(hb.le hmm).1, (hb.le hmm).2, hb.take⟩
  refine ⟨hflat, ?_, ?_, ?_, ?_⟩
  · intro s hmap
    have he : (MappedFile.open content).mapped = [] := by
      rw [fast_reinit_result] at hmap
      simpa [MappedFile.mapSuccess, MappedFile.len] using hmap
    rw [he] at h
    have := h.length_le
    simpa using this
  · exact fun c hc => hpos _ (List.mem_map_of_mem hc)
  · exact fun c hc => hmax _ (List.mem_map_of_mem hc)
  · intro c hc
    apply hbd
    rw [← List.map_dropLast]
    exact List.mem_map_of_mem hc

/-- A file of one byte value, cut at a fixed size. -/
theorem FastFileOK.replicate {size n : ℕ} {b : UInt8} {cs : List Chunk} (hsize : 1 ≤ size)
    (h : FastFileOK size size mask (some (List.replicate (n * size) b)) cs) :
    cs.map Chunk.buf = List.replicate n (List.replicate size b) := by
  have hflat : (cs.map Chunk.buf).flatten = List.replicate (n * size) b := by
    rw [h.bytes, MappedFile.open_some]
  have hlen : ∀ c ∈ cs, c.len = size := by
    rcases List.eq_nil_or_concat' cs with rfl | ⟨cs, c, rfl⟩
    · simp
    have hfull : ∀ x ∈ cs, x.len = size := fun x hx => by
      obtain ⟨h₁, h₂, -⟩ := h.boundary x (by rw [List.dropLast_concat]; exact hx)
      omega
    have hsum : (cs.map Chunk.len).sum = cs.length * size := by
      rw [List.sum_eq_card_nsmul _ size (by simpa using hfull), List.length_map, smul_eq_mul]
    have htotal := congrArg List.length hflat
    rw [List.length_replicate, List.map_append, List.flatten_append, List.length_append, List.length_flatten,
      List.map_map, show List.length ∘ Chunk.buf = Chunk.len from rfl, hsum] at htotal
    have hpos := h.pos c (by simp)
    have hle := h.le_max c (by simp)
    -- all but the last are full, so the last one is
    have hlast : c.len = size := by
      have hmod := congrArg (· % size) htotal
      simp only [List.map_cons, List.map_nil, List.flatten_singleton, Nat.mul_add_mod', Nat.mul_mod_left] at hmod
      have hdvd : size ∣ c.len := Nat.dvd_of_mod_eq_zero hmod
      exact le_antisymm hle (Nat.le_of_dvd hpos hdvd)
    intro x hx
    rcases List.mem_append.1 hx with hx | hx
    · exact hfull x hx
    · rw [List.mem_singleton.1 hx, hlast]
  have hall : ∀ x ∈ cs.map Chunk.buf, x = List.replicate size b := by
    intro x hx
    obtain ⟨c, hc, rfl⟩ := List.mem_map.1 hx
    refine List.eq_replicate_iff.2 ⟨hlen c hc, fun y hy => ?_⟩
    exact List.eq_of_mem_replicate (hflat ▸ List.mem_flatten.2 ⟨_, hx, hy⟩)
  have heq : cs.map Chunk.buf = List.replicate cs.length (List.replicate size b) :=
    List.eq_replicate_iff.2 ⟨List.length_map _, hall⟩
  have hn := congrArg List.length hflat
  rw [heq] at hn ⊢
  simp only [List.length_flatten, List.map_replicate, List.length_replicate, List.sum_replicate, smul_eq_mul] at hn
  rw [Nat.eq_of_mul_eq_mul_right (by omega) hn]

/-- **Whole runs**, from any drained chunker. -/
theorem drainFiles_fast (hpos : 1 ≤ max) (hmm : min ≤ max) (hmax : max < 2 ^ 31 - 1) :
    ∀ (files : List FileContent) (s : FastCDC), FastOK min max mask s → s.remainingFileLen = 0 →
      ∃ css s', drainFiles files s = some (css, s') ∧
        List.Forall₂ (FastFileOK min max mask) files css ∧
        css.flatten.map Chunk.id = idsFrom s.nextChunkId css.flatten.length := by
  intro files
  induction files with
  | nil => intro s _ _; exact ⟨[], s, rfl, .nil, rfl⟩
  | cons content files ih =>
    intro s hs h0
    obtain ⟨cs, s₁, hd, hchop, hids, hnext, hs₁, h0₁⟩ := drainFile_fast hpos hmm hmax hs h0 content
    obtain ⟨css, s₂, hds, hok, hids'⟩ := ih s₁ hs₁ h0₁
    refine ⟨cs :: css, s₂, by simp [drainFiles, hd, hds], .cons (fastFileOK_of_chop hmm hchop) hok, ?_⟩
    rw [List.flatten_cons, List.map_append, hids, hids', hnext, List.length_append, idsFrom_add]

/-- **With a maximum of 0** every chunk is empty, and the calls never end. -/
theorem drainLoop_max_zero (fuel : ℕ) {s : FastCDC} (hmin : s.minChunkSize = 0) (hmax : s.maxChunkSize = 0)
    (hpos : 0 < s.remainingFileLen) : drainLoop fuel s = none := by
  induction fuel generalizing s with
  | zero => rfl
  | succ fuel ih =>
    have hnext : Chunker.getNextChunk s = (Chunk.fromMemoryRef s.file.mapped s.fileReadPtr 0 s.nextChunkId).bind
        fun chunk => some (some chunk, { s with nextChunkId := nextId s.nextChunkId }) := by
      simp only [Chunker.getNextChunk, FastCDC.getNextChunk, hmin, hmax]
      rw [if_neg (by omega), if_neg (by omega), Nat.min_zero]
      rfl
    rw [drainLoop, hnext]
    cases Chunk.fromMemoryRef s.file.mapped s.fileReadPtr 0 s.nextChunkId with
    | none => rfl
    | some chunk =>
      have hrest := ih (s := { s with nextChunkId := nextId s.nextChunkId }) hmin hmax hpos
      simp [hrest]

/-- With a maximum of 0 only files without bytes are drained. -/
theorem drainFiles_max_zero {files : List FileContent} {s k : FastCDC} {css : List (List Chunk)}
    (hs : FastOK 0 0 mask s) (h0 : s.remainingFileLen = 0) (hd : drainFiles files s = some (css, k)) :
    css.flatten = [] := by
  induction files generalizing s css k with
  | nil =>
    obtain ⟨rfl, -⟩ := Prod.mk.inj (Option.some.inj hd)
    rfl
  | cons content files ih =>
    simp only [drainFiles, Option.bind_eq_bind, Option.bind_eq_some_iff, Option.some.injEq, Prod.mk.injEq] at hd
    obtain ⟨⟨cs, s₁⟩, hcs, ⟨css', k'⟩, hcss, hcons, -⟩ := hd
    obtain ⟨h1, -, -⟩ := fast_reinit hs h0 content
    have hdrained : (Chunker.reinitWithFile content s).2.remainingFileLen = 0 := by
      by_contra hne
      have hnone := drainLoop_max_zero (Chunker.remainingFileLen (Chunker.reinitWithFile content s).2 + 1)
        h1.min h1.max (Nat.pos_of_ne_zero hne)
      rw [show drainLoop _ _ = some (cs, s₁) from hcs] at hnone
      cases hnone
    have hstop : Chunker.getNextChunk (Chunker.reinitWithFile content s).2 =
        some (none, (Chunker.reinitWithFile content s).2) := by
      simp only [Chunker.getNextChunk, FastCDC.getNextChunk]
      rw [if_pos hdrained]
    obtain ⟨rfl, rfl⟩ := Prod.mk.inj (Option.some.inj ((drain_nullptr hstop).symm.trans hcs))
    rw [← hcons, List.flatten_cons, ih h1 hdrained hcss]
    rfl

/-- **`FastCDC` partitions every file over whole runs.** Every drain ends and reads only mapped
bytes; the chunks of each file are the file's bytes, cut where the rule says; the chunks of the
whole sequence are numbered 0, 1, 2, ... modulo `2^32`. -/
theorem fastCDC_partition (hmin : 1 ≤ min) (hmm : min ≤ max) (hmax : max < 2 ^ 31 - 1) (mask : UInt64)
    (files : List FileContent) :
    ∃ css s', drainFiles files (FastCDC.new min max mask) = some (css, s') ∧
      List.Forall₂ (FastFileOK min max mask) files css ∧
      css.flatten.map Chunk.id = (List.range css.flatten.length).map (· % 2 ^ 32) := by
  obtain ⟨css, s', hd, hok, hids⟩ :=
    drainFiles_fast (hmin.trans hmm) hmm hmax files (.new min max mask) (FastOK.new min max mask) rfl
  refine ⟨css, s', hd, hok, ?_⟩
  rw [hids, idsFrom_eq (FastOK.new min max mask).id_lt]
  simp [FastCDC.new]

theorem fastCDC_partition_small :
    (1 ≤ 2 ∧ 2 ≤ 4 ∧ 4 < 2 ^ 31 - 1) ∧
      ∃ css s', drainFiles [some [7, 1, 2, 3, 9], none, some []] (FastCDC.new 2 4 1) = some (css, s') ∧
        List.Forall₂ (FastFileOK 2 4 1) [some [7, 1, 2, 3, 9], none, some []] css ∧
        css.flatten.map Chunk.id = (List.range css.flatten.length).map (· % 2 ^ 32) :=
  ⟨by decide, fastCDC_partition (by decide) (by decide) (by decide) 1 _⟩

/-- A file of `2^32 + 1` bytes cut into chunks of one byte: the last chunk has id 0 again. -/
theorem fastCDC_ids_repeat :
    ¬ ∀ (min max : ℕ) (mask : UInt64) (files : List FileContent), 1 ≤ min → min ≤ max →
      max < 2 ^ 31 - 1 →
      ∃ css s', drainFiles files (FastCDC.new min max mask) = some (css, s') ∧
        List.Forall₂ (FastFileOK min max mask) files css ∧
        css.flatten.map Chunk.id = List.range css.flatten.length := by
  intro h
  obtain ⟨css, s', hd, hok, hids⟩ :=
    h 1 1 0 [some (List.replicate (2 ^ 32 + 1) 0)] le_rfl le_rfl (by omega)
  obtain ⟨css', s'', hd', -, hids'⟩ := drainFiles_fast le_rfl le_rfl
    (by omega : 1 < 2 ^ 31 - 1) [some (List.replicate (2 ^ 32 + 1) 0)] (.new 1 1 0) (FastOK.new 1 1 0) rfl
  rw [hd, Option.some.injEq, Prod.mk.injEq] at hd'
  obtain ⟨rfl, -⟩ := hd'
  rw [idsFrom_eq (FastOK.new 1 1 0).id_lt] at hids'
  -- the one file's chunks have one byte each, so there are `2^32 + 1` of them
  obtain ⟨cs, css', hcs, hnil, rfl⟩ := List.forall₂_cons_left_iff.1 hok
  obtain rfl := List.forall₂_nil_left_iff.1 hnil
  have hbufs := FastFileOK.replicate (n := 2 ^ 32 + 1) le_rfl (by rw [Nat.mul_one]; exact hcs)
  have hlen : cs.length = 2 ^ 32 + 1 := by
    have hl := congrArg List.length hbufs
    rwa [List.length_map, List.length_replicate] at hl
  rw [List.flatten_cons, List.flatten_nil, List.append_nil] at hids hids'
  have hat := congrArg (fun l => l[2 ^ 32]?) (hids.symm.trans hids')
  simp only [List.getElem?_map] at hat
  rw [List.getElem?_range (by omega)] at hat
  simp [FastCDC.new] at hat

end ChunkGrouping
