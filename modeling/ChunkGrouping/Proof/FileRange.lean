import ChunkGrouping.Proof.Sequential

/-!
# The chunk range in a file's record

`start_chunk_id` is set by the first chunk that finds it at `-1`, `end_chunk_id` by
every delta. So the record depends on the ids and on what the index answered.

* `addChunks_meta`: the record after the loop.
* `startOf_iff`, `endOf_iff`: when its two ids are those of the first and the last chunk.
* `fileMeta_iff`: for every file of every run.
-/

namespace ChunkGrouping

variable {κ ι φ : Type}

/-- `start_chunk_id` after the chunks. -/
def startOf : ℕ → List Chunk → ℕ
  | start, [] => start
  | start, c :: cs => startOf (if start = 2 ^ 32 - 1 then c.id else start) cs

/-- `end_chunk_id` after the chunks and the index's answers for them. -/
def endOf : Option ℕ → List Chunk → List (Option ℕ) → Option ℕ
  | e, c :: cs, o :: os => endOf (if o.isSome then some c.id else e) cs os
  | e, _, _ => e

/-- **The record after the loop**, and what the index answered. -/
theorem addChunks_meta [Index ι φ] (feature : Chunk → φ) (cs : List Chunk) :
    ∀ (m m' : FileMeta) (d d' : DeltaState ι), addChunks feature cs m d = some (m', d') →
      ∃ os, lookups feature cs d.index = some (os, d'.index) ∧ os.length = cs.length ∧
        m'.startChunkId = startOf m.startChunkId cs ∧ m'.endChunkId = endOf m.endChunkId cs os := by
  induction cs with
  | nil =>
    intro m m' d d' h
    simp only [addChunks, Option.some.injEq, Prod.mk.injEq] at h
    obtain ⟨rfl, rfl⟩ := h
    exact ⟨[], rfl, rfl, rfl, rfl⟩
  | cons c cs ih =>
    intro m m' d d' h
    simp only [addChunks, Option.bind_eq_bind, Option.bind_eq_some_iff] at h
    obtain ⟨⟨m₁, d₁⟩, hc, h⟩ := h
    obtain ⟨os, hos, hlen, hstart, hend⟩ := ih m₁ m' d₁ d' h
    obtain ⟨hstart₁, hcase⟩ := addChunk_cases hc
    rcases hcase with ⟨idx, ho, hidx, rfl, he⟩ | ⟨b, s, ho, -, rfl, he⟩
    · refine ⟨none :: os, lookups_none ho hidx hos, by simp [hlen], ?_, ?_⟩
      · rw [hstart, hstart₁]; rfl
      · rw [hend, he]; rfl
    · refine ⟨some b :: os, lookups_some ho hos, by simp [hlen], ?_, ?_⟩
      · rw [hstart, hstart₁]; rfl
      · rw [hend, he]; rfl

theorem startOf_of_ne {start : ℕ} (h : start ≠ 2 ^ 32 - 1) (cs : List Chunk) :
    startOf start cs = start := by
  induction cs with
  | nil => rfl
  | cons c cs ih => rw [startOf, if_neg h, ih]

/-- **The start is right** unless the first id is that of the mark `-1` and another chunk follows. -/
theorem startOf_iff {n : ℕ} {c : Chunk} {cs : List Chunk}
    (hids : (c :: cs).map Chunk.id = idsFrom n (c :: cs).length) :
    startOf (2 ^ 32 - 1) (c :: cs) = c.id ↔ n ≠ 2 ^ 32 - 1 ∨ cs = [] := by
  rw [List.map_cons, List.length_cons, idsFrom, List.cons.injEq] at hids
  obtain ⟨hc, hcs⟩ := hids
  rw [startOf, if_pos rfl]
  by_cases hn : n = 2 ^ 32 - 1
  · cases cs with
    | nil => simp [startOf]
    | cons c' cs =>
      rw [List.map_cons, List.length_cons, idsFrom, List.cons.injEq] at hcs
      have h0 : c'.id = 0 := by rw [hcs.1, hn]; rfl
      have hne : c'.id ≠ 2 ^ 32 - 1 := by rw [h0]; decide
      rw [hc, hn, startOf, if_pos rfl, startOf_of_ne hne, h0]
      simp
  · rw [startOf_of_ne (by rw [hc]; exact hn)]
    exact ⟨fun _ => .inl hn, fun _ => rfl⟩

/-- The last delta of a file is its last chunk, or `2^32` chunks before it, or twice as many, and so
on. -/
def LastDelta (os : List (Option ℕ)) : Prop :=
  ∃ i b, os[i]? = some (some b) ∧ (∀ j, i < j → j < os.length → os[j]? = some none) ∧
    (os.length - 1 - i) % 2 ^ 32 = 0

/-- `end_chunk_id` is the id of the last delta. -/
theorem endOf_eq_some {e : Option ℕ} {cs : List Chunk} {os : List (Option ℕ)} {id : ℕ}
    (hlen : os.length = cs.length) : endOf e cs os = some id ↔
      (∃ i b c, os[i]? = some (some b) ∧ cs[i]? = some c ∧ c.id = id ∧
        ∀ j, i < j → j < os.length → os[j]? = some none) ∨
      (e = some id ∧ ∀ j < os.length, os[j]? = some none) := by
  induction cs generalizing e os with
  | nil =>
    obtain rfl := List.length_eq_zero_iff.1 hlen
    simp [endOf]
  | cons c cs ih =>
    obtain ⟨o, os, rfl⟩ := List.exists_cons_of_length_eq_add_one hlen
    have hlen' : os.length = cs.length := by simpa using hlen
    rw [endOf, ih hlen']
    have hall : (∀ j < (o :: os).length, (o :: os)[j]? = some none) ↔
        o = none ∧ ∀ j < os.length, os[j]? = some none := by
      constructor
      · intro h
        exact ⟨Option.some.inj (h 0 (by simp)), fun j hj => h (j + 1) (by simpa using hj)⟩
      · rintro ⟨rfl, h⟩ j hj
        cases j with
        | zero => rfl
        | succ j => exact h j (by simpa using hj)
    constructor
    · rintro (⟨i, b, c', ho, hc, hid, hno⟩ | ⟨he, hno⟩)
      · -- the last delta is among the chunks behind the first
        refine .inl ⟨i + 1, b, c', ho, hc, hid, fun j hj hl => ?_⟩
        obtain ⟨j, rfl⟩ : ∃ k, j = k + 1 := ⟨j - 1, by omega⟩
        exact hno j (by omega) (by simpa using hl)
      · cases o with
        | none => exact .inr ⟨by simpa using he, hall.2 ⟨rfl, hno⟩⟩
        | some b =>
          refine .inl ⟨0, b, c, rfl, rfl, by simpa using he, fun j hj hl => ?_⟩
          obtain ⟨j, rfl⟩ : ∃ k, j = k + 1 := ⟨j - 1, by omega⟩
          exact hno j (by simpa using hl)
    · rintro (⟨i, b, c', ho, hc, hid, hno⟩ | ⟨he, hno⟩)
      · cases i with
        | zero =>
          simp only [List.getElem?_cons_zero, Option.some.injEq] at ho hc
          subst ho hc
          exact .inr ⟨by simpa using hid, fun j hj => hno (j + 1) (by omega) (by simpa using hj)⟩
        | succ i =>
          exact .inl ⟨i, b, c', ho, hc, hid, fun j hj hl => hno (j + 1) (by omega) (by simpa using hl)⟩
      · obtain ⟨rfl, hno'⟩ := hall.1 hno
        exact .inr ⟨by simpa using he, hno'⟩

/-- The id of chunk `i`. -/
theorem getElem?_id {n i : ℕ} {cs : List Chunk} {c : Chunk} (hn : n < 2 ^ 32)
    (hids : cs.map Chunk.id = idsFrom n cs.length) (hc : cs[i]? = some c) : c.id = (n + i) % 2 ^ 32 := by
  have hi : i < cs.length := (List.getElem?_eq_some_iff.1 hc).1
  have h : (cs.map Chunk.id)[i]? = some c.id := by rw [List.getElem?_map, hc]; rfl
  rw [hids, idsFrom_eq hn, List.getElem?_map, List.getElem?_range hi] at h
  exact (Option.some.inj h).symm

/-- **The end is right** when the last delta has the id of the last chunk. -/
theorem endOf_iff {n : ℕ} {cs : List Chunk} {os : List (Option ℕ)} {c : Chunk} (hn : n < 2 ^ 32)
    (hids : cs.map Chunk.id = idsFrom n cs.length) (hlen : os.length = cs.length)
    (hc : cs.getLast? = some c) : endOf none cs os = some c.id ↔ LastDelta os := by
  have hlast : cs[cs.length - 1]? = some c := by rw [← List.getLast?_eq_getElem?, hc]
  have hpos : cs.length - 1 < cs.length := (List.getElem?_eq_some_iff.1 hlast).1
  have hid := getElem?_id hn hids hlast
  rw [endOf_eq_some hlen]
  constructor
  · rintro (⟨i, b, c', ho, hc', hid', hno⟩ | ⟨he, -⟩)
    · refine ⟨i, b, ho, hno, ?_⟩
      have hi : i < cs.length := (List.getElem?_eq_some_iff.1 hc').1
      rw [getElem?_id hn hids hc', hid] at hid'
      rw [hlen]; omega
    · simp at he
  · rintro ⟨i, b, ho, hno, hmod⟩
    have hi : i < os.length := (List.getElem?_eq_some_iff.1 ho).1
    have hc' : cs[i]? = some cs[i] := List.getElem?_eq_getElem (hlen ▸ hi)
    refine .inl ⟨i, b, cs[i], ho, hc', ?_, hno⟩
    rw [getElem?_id hn hids hc', hid]
    rw [hlen] at hi hmod; omega

/-- The record names the range of the chunks: the id of the first, the id of the last. -/
def NamesRange (m : FileMeta) (cs : List Chunk) : Prop :=
  cs.head?.map Chunk.id = some m.startChunkId ∧ cs.getLast?.map Chunk.id = m.endChunkId

section Run

variable [Chunker κ] [LawfulChunker κ] [Index ι φ]

/-- The id counter stays a `uint32_t`. -/
theorem nextChunkId_addFiles (codec : Codec) (feature : Chunk → φ)
    (files : List (String × FileContent)) : ∀ d d' : DeltaCompression κ ι,
      Chunker.nextChunkId d.chunker < 2 ^ 32 → d.addFiles codec feature files = some d' →
      Chunker.nextChunkId d'.chunker < 2 ^ 32 := by
  induction files with
  | nil =>
    intro d d' hn h
    rw [← Option.some.inj h]; exact hn
  | cons file files ih =>
    intro d d' hn h
    simp only [DeltaCompression.addFiles, Option.bind_eq_bind, Option.bind_eq_some_iff] at h
    obtain ⟨d₁, h₁, h₂⟩ := h
    obtain ⟨cs, k, -, -, -, hd, -, -, -, hk, -⟩ := addFile_cases h₁
    refine ih d₁ d' ?_ h₂
    rw [hk, (ids_drainFile hd).2, iterate_nextId hn]
    exact Nat.mod_lt _ (by omega)

/-- **A file's record names its range exactly when** its last delta is its last chunk (or has the
same 32-bit id), and its first id is not `2^32 - 1`, the mark `-1`, unless the file is one chunk. -/
theorem fileMeta_iff (codec : Codec) (feature : Chunk → φ) (files : List (String × FileContent))
    (fileName : String) (content : FileContent) (d d₁ d₂ : DeltaCompression κ ι)
    (hnew : Chunker.nextChunkId d.chunker = 0) (hrun : d.addFiles codec feature files = some d₁)
    (hadd : d₁.addFile codec feature fileName content = some d₂) :
    ∃ cs k os idx m, drainFile content d₁.chunker = some (cs, k) ∧
      lookups feature cs d₁.index = some (os, idx) ∧ d₂.fileMetas = d₁.fileMetas ++ [m] ∧
      (cs ≠ [] → (NamesRange m cs ↔
        LastDelta os ∧ (Chunker.nextChunkId d₁.chunker ≠ 2 ^ 32 - 1 ∨ cs.length = 1))) := by
  obtain ⟨cs, k, m, s, g, hd, ha, -, -, -, hm⟩ := addFile_cases hadd
  obtain ⟨os, hos, hlen, hstart, hend⟩ := addChunks_meta feature cs _ _ _ _ ha
  refine ⟨cs, k, os, s.index, m, hd, hos, hm, fun hne => ?_⟩
  have hn := nextChunkId_addFiles codec feature files d d₁ (by rw [hnew]; omega) hrun
  have hids := (ids_drainFile hd).1
  obtain ⟨c, cs, rfl⟩ := List.exists_cons_of_ne_nil hne
  obtain ⟨l, hl⟩ : ∃ l, (c :: cs).getLast? = some l := ⟨_, List.getLast?_eq_some_getLast hne⟩
  have h1 := startOf_iff hids
  have h2 := endOf_iff hn hids hlen hl
  unfold NamesRange
  rw [hstart, hend, hl, List.head?_cons, Option.map_some, Option.map_some, Option.some.injEq,
    eq_comm (a := c.id), h1, eq_comm (a := some l.id), h2]
  simp [and_comm]

end Run

open InsertMap in
/-- A file of a base and a delta against it. -/
theorem fileMeta_iff_two : ∃ d m,
    (DeltaCompression.new (FastCDC.new 1 1 0) (BestFitIndex.new (.byInsertion _) 12) 1).addFile
        ⟨List.length, List.length, List.length⟩ (OdessSubfeatures.call : Chunk → Feature ℚ) "a" (some [1, 1]) = some d ∧
      d.fileMetas = [m] ∧ NamesRange m [⟨[1], 0⟩, ⟨[1], 1⟩] := by
  have hsome : ((DeltaCompression.new (FastCDC.new 1 1 0) (BestFitIndex.new (.byInsertion _) 12) 1).addFile
      ⟨List.length, List.length, List.length⟩ (OdessSubfeatures.call : Chunk → Feature ℚ) "a"
      (some [1, 1])).isSome := by
    decide +kernel
  obtain ⟨d, hd⟩ := Option.isSome_iff_exists.1 hsome
  obtain ⟨cs, k, os, idx, m, hcs, hos, hm, hiff⟩ := fileMeta_iff _ _ [] _ _ _ _ _ rfl rfl hd
  have hcs' : (drainFile (some [1, 1]) (FastCDC.new 1 1 0)).map Prod.fst = some [⟨[1], 0⟩, ⟨[1], 1⟩] := by
    decide +kernel
  rw [show drainFile (some [1, 1]) (FastCDC.new 1 1 0) = some (cs, k) from hcs] at hcs'
  obtain rfl : cs = [⟨[1], 0⟩, ⟨[1], 1⟩] := Option.some.inj hcs'
  have hos' : (lookups (OdessSubfeatures.call : Chunk → Feature ℚ) [⟨[1], 0⟩, ⟨[1], 1⟩]
      (BestFitIndex.new (.byInsertion _) 12)).map Prod.fst = some [none, some 0] := by decide +kernel
  rw [show lookups (OdessSubfeatures.call : Chunk → Feature ℚ) [⟨[1], 0⟩, ⟨[1], 1⟩]
      (BestFitIndex.new (.byInsertion _) 12) = some (os, idx) from hos] at hos'
  obtain rfl : os = [none, some 0] := Option.some.inj hos'
  refine ⟨d, m, hd, hm, (hiff (by simp)).2 ⟨⟨1, 0, rfl, fun j h1 h2 => ?_, rfl⟩, .inl (by decide)⟩⟩
  simp only [List.length_cons, List.length_nil] at h2
  omega

open InsertMap in
/-- The record of a file of one base chunk has no end. -/
theorem fileMeta_of_base : ∃ d m k,
    (DeltaCompression.new (FastCDC.new 1 1 0) (BestFitIndex.new (.byInsertion _) 12) 1).addFile
        ⟨List.length, List.length, List.length⟩ (OdessSubfeatures.call : Chunk → Feature ℚ) "a" (some [1]) = some d ∧
      drainFile (some [1]) (FastCDC.new 1 1 0) = some ([⟨[1], 0⟩], k) ∧
      d.fileMetas = [m] ∧ ¬ NamesRange m [⟨[1], 0⟩] := by
  have hmeta : ((DeltaCompression.new (FastCDC.new 1 1 0) (BestFitIndex.new (.byInsertion _) 12) 1).addFile
      ⟨List.length, List.length, List.length⟩ (OdessSubfeatures.call : Chunk → Feature ℚ) "a" (some [1])).map
        (fun d => d.fileMetas) = some [⟨"a", 0, none⟩] := by decide +kernel
  have hdrain : (drainFile (some [1]) (FastCDC.new 1 1 0)).map Prod.fst = some [⟨[1], 0⟩] := by
    decide +kernel
  obtain ⟨d, hd, hm⟩ := Option.map_eq_some_iff.1 hmeta
  obtain ⟨⟨cs, k⟩, hk, rfl⟩ := Option.map_eq_some_iff.1 hdrain
  exact ⟨d, _, k, hd, hk, hm, by simp [NamesRange]⟩

end ChunkGrouping
