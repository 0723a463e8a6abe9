import ChunkGrouping.Proof.FileRange
import ChunkGrouping.Proof.References

/-!
# Files come back

What a reader can do with the files that are left: for the record of a file, `GetChunkContent`
for the ids of its chunks, one after the other. The records of the sequential mode have the start
of each file only.

* `getChunks_of_reads`: the bytes of a range of ids; `getFiles_of_reads`: files that lie one
  behind the other.
* `fileMetas_addFiles`: the records of the sequential mode; `startRanges_ok`: their ranges.
* `addFiles_restores`: all files come back.
-/

namespace ChunkGrouping

open InsertMap CFile

/-! ## Reading -/

namespace Storage

/-- `GetChunkContent` for the `n` ids from `id` on: their bytes. -/
def getChunks : ℕ → ℕ → Storage → Option (List UInt8 × Storage)
  | 0, _, s => some ([], s)
  | n + 1, id, s => do
    let (chunk, s) ← s.getChunkContent id
    let (rest, s) ← getChunks n (id + 1) s
    some (chunk.buf ++ rest, s)

/-- A name, a first id and a number of chunks for each file: the files. -/
def getFiles : List (String × ℕ × ℕ) → Storage → Option (List (String × List UInt8))
  | [], _ => some []
  | (name, id, n) :: ranges, s => do
    let (bytes, s) ← s.getChunks n id
    let rest ← getFiles ranges s
    some ((name, bytes) :: rest)

/-- The number of records. -/
def recordCount (s : Storage) : ℕ := s.metaFile.bytes.length / sizeofChunkMeta

end Storage

/-- Where the next file begins that has chunks. A file without chunks has the mark `-1`. -/
def nextStart (count : ℕ) : List FileMeta → ℕ
  | [] => count
  | m :: ms => if m.startChunkId = 2 ^ 32 - 1 then nextStart count ms else m.startChunkId

/-- From start to start, for the records of the sequential mode. -/
def startRanges (count : ℕ) : List FileMeta → List (String × ℕ × ℕ)
  | [] => []
  | m :: ms =>
    (m.fileName, m.startChunkId, if m.startChunkId = 2 ^ 32 - 1 then 0 else nextStart count ms - m.startChunkId) ::
      startRanges count ms

/-- `GetChunkContent` gives these contents, by id, and leaves the storage as it was. -/
def Reads (s : Storage) (contents : List (List UInt8)) : Prop :=
  ∀ k b, contents[k]? = some b → s.getChunkContent k = some (⟨b, k⟩, s)

variable {s : Storage} {contents : List (List UInt8)}

/-- **A range of ids.** -/
theorem getChunks_of_reads (h : Reads s contents) : ∀ {n id : ℕ}, id + n ≤ contents.length →
    s.getChunks n id = some (((contents.drop id).take n).flatten, s) := by
  intro n
  induction n with
  | zero => intro id _; rfl
  | succ n ih =>
    intro id hle
    have hid : id < contents.length := by omega
    simp only [Storage.getChunks, h id _ (List.getElem?_eq_getElem hid),
      ih (show id + 1 + n ≤ contents.length by omega), Option.bind_eq_bind, Option.bind_some]
    rw [List.drop_eq_getElem_cons hid, List.take_succ_cons, List.flatten_cons]

/-- The ranges of pieces that lie one behind the other. -/
def rangesOf : ℕ → List (String × List (List UInt8)) → List (String × ℕ × ℕ)
  | _, [] => []
  | n, (name, ps) :: files => (name, n, ps.length) :: rangesOf (n + ps.length) files

/-- **Files that lie one behind the other.** A range without chunks may begin anywhere. -/
theorem getFiles_of_reads (h : Reads s contents) : ∀ (files : List (String × List (List UInt8))) {n : ℕ}
    {ranges : List (String × ℕ × ℕ)}, contents.drop n = (files.map Prod.snd).flatten → n ≤ contents.length →
      List.Forall₂ (fun x y => x.1 = y.1 ∧ x.2.2 = y.2.2 ∧ (x.2.2 ≠ 0 → x.2.1 = y.2.1)) ranges (rangesOf n files) →
      s.getFiles ranges = some (files.map fun f => (f.1, f.2.flatten)) := by
  intro files
  induction files with
  | nil =>
    intro n ranges _ _ hr
    obtain rfl := List.forall₂_nil_right_iff.1 hr
    rfl
  | cons f files ih =>
    intro n ranges hdrop hn hr
    obtain ⟨name, ps⟩ := f
    obtain ⟨⟨name', id, len⟩, ranges', ⟨rfl, hlen, hid⟩, hrest, rfl⟩ := List.forall₂_cons_right_iff.1 hr
    dsimp only at hlen hid
    subst hlen
    rw [List.map_cons, List.flatten_cons] at hdrop
    dsimp only at hdrop
    have hbound : n + ps.length ≤ contents.length := by
      have := congrArg List.length hdrop
      rw [List.length_drop, List.length_append] at this
      omega
    have hbytes : s.getChunks ps.length id = some (ps.flatten, s) := by
      by_cases hps : ps.length = 0
      · rw [List.length_eq_zero_iff.1 hps]
        rfl
      · rw [hid hps, getChunks_of_reads h hbound, hdrop, List.take_left' rfl]
    have hnext : contents.drop (n + ps.length) = (files.map Prod.snd).flatten := by
      rw [← List.drop_drop, hdrop, List.drop_left' rfl]
    simp only [Storage.getFiles, hbytes, ih hnext hbound hrest, Option.bind_eq_bind, Option.bind_some, List.map_cons]

theorem RecordsOK.recordCount {ms : List ChunkMeta} (h : RecordsOK s ms) : s.recordCount = ms.length := by
  unfold Storage.recordCount
  rw [h.metaBytes, Batching.length_flatMap fun m _ => length_toBytes m, Nat.mul_div_cancel _ (by decide)]

/-! ## The sequential mode -/

section Sequential

variable {κ ι φ : Type} [Index ι φ]

theorem fileName_addChunks (feature : Chunk → φ) (cs : List Chunk) : ∀ {m m' : FileMeta} {d d' : DeltaState ι},
    addChunks feature cs m d = some (m', d') → m'.fileName = m.fileName := by
  induction cs with
  | nil =>
    intro m m' d d' h
    rw [← (Prod.mk.inj (Option.some.inj h)).1]
  | cons c cs ih =>
    intro m m' d d' h
    simp only [addChunks, Option.bind_eq_bind, Option.bind_eq_some_iff] at h
    obtain ⟨⟨m₁, d₁⟩, hc, h⟩ := h
    rw [ih h]
    simp only [DeltaState.addChunk, Option.bind_eq_bind, Option.bind_eq_some_iff] at hc
    obtain ⟨o, -, hc⟩ := hc
    cases o <;> simp only [Option.bind_eq_some_iff, Option.some.injEq, Prod.mk.injEq] at hc
    · obtain ⟨_, -, rfl, -⟩ := hc
      split <;> rfl
    · obtain ⟨_, -, rfl, -⟩ := hc
      dsimp only
      split <;> rfl

/-- What the sequential mode records of a file. -/
def RecordsStart (x : (String × FileContent) × List Chunk) (m : FileMeta) : Prop :=
  m.fileName = x.1.1 ∧ m.startChunkId = startOf (2 ^ 32 - 1) x.2

/-- **The records of a run.** -/
theorem fileMetas_addFiles [Chunker κ] {codec : Codec} {feature : Chunk → φ} (files : List (String × FileContent)) :
    ∀ {d d' : DeltaCompression κ ι} {css : List (List Chunk)} {k : κ},
      drainFiles (files.map Prod.snd) d.chunker = some (css, k) → d.addFiles codec feature files = some d' →
      css.length = files.length ∧
        ∃ ms, d'.fileMetas = d.fileMetas ++ ms ∧ List.Forall₂ RecordsStart (files.zip css) ms := by
  induction files with
  | nil =>
    intro d d' css k hd h
    obtain ⟨rfl, -⟩ := Prod.mk.inj (Option.some.inj hd)
    obtain rfl := Option.some.inj h
    exact ⟨rfl, [], by simp, .nil⟩
  | cons file files ih =>
    intro d d' css k hd h
    obtain ⟨name, content⟩ := file
    simp only [DeltaCompression.addFiles, Option.bind_eq_bind, Option.bind_eq_some_iff] at h
    obtain ⟨d₁, h₁, h⟩ := h
    obtain ⟨cs, k₁, m, s, g, hcs, hadd, -, -, hk, hm⟩ := addFile_cases h₁
    simp only [List.map_cons, drainFiles, hcs, Option.bind_eq_bind, Option.bind_some, Option.bind_eq_some_iff,
      Option.some.injEq, Prod.mk.injEq] at hd
    obtain ⟨⟨css', k₂⟩, hrest, rfl, rfl⟩ := hd
    obtain ⟨hlen, ms, hms, hok⟩ := ih (hk ▸ hrest) h
    obtain ⟨os, -, -, hstart, -⟩ := addChunks_meta feature cs _ _ _ _ hadd
    refine ⟨by simp [hlen], m :: ms, by rw [hms, hm]; simp, ?_⟩
    exact .cons ⟨fileName_addChunks feature cs hadd, hstart⟩ hok

/-- **From start to start** are the ranges of the files, as long as no id is the mark. -/
theorem startRanges_ok {xs : List ((String × FileContent) × List Chunk)} {ms : List FileMeta}
    (h : List.Forall₂ RecordsStart xs ms) : ∀ {n : ℕ}, n + (xs.flatMap Prod.snd).length < 2 ^ 32 →
      (xs.flatMap Prod.snd).map Chunk.id = idsFrom n (xs.flatMap Prod.snd).length →
      nextStart (n + (xs.flatMap Prod.snd).length) ms = n ∧
        List.Forall₂ (fun x y => x.1 = y.1 ∧ x.2.2 = y.2.2 ∧ (x.2.2 ≠ 0 → x.2.1 = y.2.1))
          (startRanges (n + (xs.flatMap Prod.snd).length) ms)
          (rangesOf n (xs.map fun x => (x.1.1, x.2.map Chunk.buf))) := by
  induction h with
  | nil => intro n _ _; exact ⟨rfl, .nil⟩
  | @cons x m xs ms hm _ ih =>
    intro n hlt hids
    obtain ⟨⟨name, content⟩, cs⟩ := x
    obtain ⟨hname, hstart⟩ := hm
    dsimp only at hname hstart
    rw [List.flatMap_cons] at hlt hids ⊢
    dsimp only at hlt hids ⊢
    rw [List.length_append] at hlt
    rw [List.map_append, List.length_append, idsFrom_add, iterate_nextId (by omega), Nat.mod_eq_of_lt (by omega)] at hids
    obtain ⟨hcs, hrest⟩ := List.append_inj hids (by rw [List.length_map, length_idsFrom])
    obtain ⟨hnext, hranges⟩ := ih (by omega) hrest
    rw [List.length_append, ← Nat.add_assoc]
    cases cs with
    | nil =>
      have hmark : m.startChunkId = 2 ^ 32 - 1 := hstart
      refine ⟨by rw [nextStart, if_pos hmark]; exact hnext, .cons ⟨hname, ?_, ?_⟩ hranges⟩
      · rw [if_pos hmark]
        rfl
      · rw [if_pos hmark]
        exact fun h => absurd rfl h
    | cons c cs =>
      have hn : n ≠ 2 ^ 32 - 1 := by
        rw [List.length_cons] at hlt
        omega
      have hfirst : m.startChunkId = n := by
        rw [hstart, (startOf_iff hcs).2 (.inl hn)]
        exact (List.cons.inj hcs).1
      have hmark : m.startChunkId ≠ 2 ^ 32 - 1 := by rw [hfirst]; exact hn
      refine ⟨by rw [nextStart, if_neg hmark, hfirst], .cons ⟨hname, ?_, fun _ => hfirst⟩ ?_⟩
      · rw [if_neg hmark, hnext, hfirst, List.length_map]
        exact Nat.add_sub_cancel_left ..
      · rw [List.length_map]
        exact hranges

theorem mapped_open (content : FileContent) : (MappedFile.open content).mapped = content.getD [] := by
  cases content with
  | none => rfl
  | some bytes => exact MappedFile.open_some bytes

/-- The files, from their chunks. -/
theorem files_of_fastFileOK {min max : ℕ} {mask : UInt64} : ∀ {files : List (String × FileContent)}
    {css : List (List Chunk)}, List.Forall₂ (FastFileOK min max mask) (files.map Prod.snd) css →
      ((files.zip css).map fun x => (x.1.1, x.2.map Chunk.buf)).map (fun f => (f.1, f.2.flatten)) =
        files.map fun f => (f.1, f.2.getD []) := by
  intro files
  induction files with
  | nil => intro css h; rfl
  | cons file files ih =>
    intro css h
    obtain ⟨cs, css', hcs, hrest, rfl⟩ := List.forall₂_cons_left_iff.1 h
    rw [List.zip_cons_cons, List.map_cons, List.map_cons, List.map_cons, ih hrest, hcs.bytes, mapped_open]

variable [LawfulIndex ι φ]

/-- **All files come back** in the sequential mode. After any run of `AddFile` calls that returned, with `FastCDC`,
either feature and index and less than `2^32` chunks that fit a record, `GetChunkContent` for the ids from the start
of each file to that of the next one gives the files that were added. With a cache of at least 1 MiB every run
returns. -/
theorem addFiles_restores (p : FeatureIndex ι φ) {min max : ℕ} (hmin : 1 ≤ min) (hmm : min ≤ max)
    (hmax : max < 2 ^ 31 - 1) (mask : UInt64) (codec : Codec) (cacheSize : ℕ) (files : List (String × FileContent))
    (hbytes : (files.map fun f => (f.2.getD []).length).sum < 2 ^ 64) :
    ∃ css k, drainFiles (files.map Prod.snd) (FastCDC.new min max mask) = some (css, k) ∧
      (css.flatten.length < 2 ^ 32 → (∀ c ∈ css.flatten, c.len ≤ 65535) →
        (2 ^ 20 ≤ (ChunkCache.new cacheSize).maxMemoryUsage →
          ((DeltaCompression.new (FastCDC.new min max mask) p.index cacheSize).addFiles codec p.feature
            files).isSome) ∧
        ∀ d, (DeltaCompression.new (FastCDC.new min max mask) p.index cacheSize).addFiles codec p.feature
            files = some d →
          d.storage.getFiles (startRanges d.storage.recordCount d.fileMetas) =
            some (files.map fun f => (f.1, f.2.getD []))) := by
  obtain ⟨css, k, hd, hok, hrun⟩ := addFiles_new p (hmin.trans hmm) hmm hmax mask codec cacheSize files hbytes
  refine ⟨css, k, hd, fun hcount hlen => ⟨(hrun hlen).1, fun d hadd => ?_⟩⟩
  obtain ⟨ws, hs, hws⟩ := (hrun hlen).2 d hadd
  obtain ⟨hfiles, ms, hms, hmetas⟩ := fileMetas_addFiles files
    (d := .new (FastCDC.new min max mask) p.index cacheSize) hd hadd
  have hmetas' : d.fileMetas = ms := by rw [hms]; rfl
  have hflat : (files.zip css).flatMap Prod.snd = css.flatten := by
    rw [List.flatMap_def, List.map_snd_zip hfiles.le]
  have hids : css.flatten.map Chunk.id = idsFrom 0 css.flatten.length := by
    obtain ⟨css', k', hd', -, hids'⟩ := drainFiles_fast (hmin.trans hmm) hmm hmax (files.map Prod.snd) (.new min max mask)
      (FastOK.new min max mask) rfl
    obtain ⟨rfl, -⟩ := Prod.mk.inj (Option.some.inj (hd.symm.trans hd'))
    exact hids'
  have hreads : Reads d.storage (css.flatten.map Chunk.buf) := by
    intro k b hk
    rw [← hws, List.getElem?_map, Option.map_eq_some_iff] at hk
    obtain ⟨w, hw, rfl⟩ := hk
    exact hs.log.getChunkContent hw
  have hrecords : d.storage.recordCount = css.flatten.length := by
    rw [hs.log.store.records.recordCount, List.length_map, length_recordsFrom,
      ← List.length_map Chunk.buf, ← hws, List.length_map]
  have hpieces : ((files.zip css).map fun x => (x.1.1, x.2.map Chunk.buf)).map Prod.snd = css.map (List.map Chunk.buf) := by
    conv_rhs => rw [← List.map_snd_zip hfiles.le]
    rw [List.map_map, List.map_map]
    rfl
  obtain ⟨-, hranges⟩ := startRanges_ok hmetas (n := 0) (by rw [hflat]; omega) (by rw [hflat]; exact hids)
  rw [hflat, Nat.zero_add] at hranges
  rw [hmetas', hrecords, getFiles_of_reads hreads _ ?_ (Nat.zero_le _) hranges, files_of_fastFileOK hok]
  rw [hpieces, List.drop_zero, List.map_flatten]

/-- Two files, one without a byte between them. -/
theorem addFiles_restores_three : ∃ d,
    (DeltaCompression.new (FastCDC.new 1 1 0) (BestFitIndex.new (.byInsertion _) 12) 1).addFiles .fewBytes
        (OdessSubfeatures.call : Chunk → Feature ℚ) [("a", some [7, 7]), ("b", some []), ("c", some [8])] = some d ∧
      d.storage.getFiles (startRanges d.storage.recordCount d.fileMetas) =
        some [("a", [7, 7]), ("b", []), ("c", [8])] := by
  have hcss : (drainFiles [some [7, 7], some [], some [8]] (FastCDC.new 1 1 0)).map Prod.fst =
      some [[⟨[7], 0⟩, ⟨[7], 1⟩], [], [⟨[8], 2⟩]] := by decide +kernel
  obtain ⟨css, k, hd, h⟩ := addFiles_restores (FeatureIndex.bestfit (ρ := ℚ) (.byInsertion _)) le_rfl le_rfl
    (by decide : 1 < 2 ^ 31 - 1) 0 .fewBytes 1 [("a", some [7, 7]), ("b", some []), ("c", some [8])] (by decide)
  rw [show drainFiles [some [7, 7], some [], some [8]] (FastCDC.new 1 1 0) = some (css, k) from hd] at hcss
  obtain rfl : css = [[⟨[7], 0⟩, ⟨[7], 1⟩], [], [⟨[8], 2⟩]] := Option.some.inj hcss
  obtain ⟨hsome, hrun⟩ := h (by decide) (by decide)
  obtain ⟨d, hadd⟩ := Option.isSome_iff_exists.1 (hsome (by decide))
  exact ⟨d, hadd, hrun d hadd⟩

end Sequential

end ChunkGrouping
