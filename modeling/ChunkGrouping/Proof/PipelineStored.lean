import ChunkGrouping.Lib.Distinct
import ChunkGrouping.Proof.PipelineTotal

/-!
# What the pipeline has stored

At any time of any run the write worker has taken the first of the files' chunks, and what it has
written is what the pipeline writes for these chunks alone: a run that is cut off leaves a store
that is as good as that of fewer chunks.

* `FirstChunks`: some first chunks of the files, whether these can all be drained or not.
* `RunOK.stored`: they are what is stored; `LockedRun.stored` at the locks, `LockedRun.processed` at
  the end.
* `Accounted`: the counters, from the calls of `storage_` so far.
* `Placed`: the data file has each content once, and which offset a record has;
  `Placed.fresh` and `Placed.again` for one more chunk, `placed_run` for any number.
* `Reports`: what counters and files say of the contents; `reports_run`.
* `locks_stored`, `locks_account`: any schedule.
-/

namespace ChunkGrouping

open InsertMap CFile BoundedPipeline PipelineRun FirstOccurrence

variable {κ ι φ : Type} [Index ι φ] [Inhabited φ] {feature : Chunk → φ}

/-! ## The first chunks -/

section First

variable [Chunker κ] {k₀ k k' k'' : κ} {cs ds : List Chunk} {css : List (List Chunk)} {contents : List FileContent}

theorem Returns.take (h : Returns k cs k') (n : ℕ) : ∃ k₁, Returns k (cs.take n) k₁ := by
  induction h with
  | nil =>
    rw [List.take_nil]
    exact ⟨k, .nil k⟩
  | @concat k₁ k₂ cs c h hc ih =>
    rcases Nat.lt_or_ge cs.length n with hlt | hle
    · have hall : (cs ++ [c]).take n = cs ++ [c] := List.take_of_length_le (by simp; omega)
      rw [hall]
      exact ⟨k₂, h.concat hc⟩
    · rw [List.take_append_of_le_length hle]
      exact ih

/-- What is drained behind the first calls. -/
theorem Returns.rest (h : Returns k cs k') {fuel : ℕ} (hd : drainLoop fuel k = some (ds, k'')) :
    ∃ fuel' es, drainLoop fuel' k' = some (es, k'') ∧ ds = cs ++ es := by
  induction h with
  | nil => exact ⟨fuel, ds, hd, rfl⟩
  | @concat k₁ k₂ cs c _ hc ih =>
    obtain ⟨fuel', es, hes, rfl⟩ := ih
    cases fuel' with
    | zero => cases hes
    | succ fuel' =>
      simp only [drainLoop, hc, Option.bind_eq_bind, Option.bind_some] at hes
      obtain ⟨⟨es', k₃⟩, hrest, he⟩ := Option.bind_eq_some_iff.1 hes
      obtain ⟨rfl, rfl⟩ := Prod.mk.inj (Option.some.inj he)
      exact ⟨fuel', es', hrest, by simp⟩

/-- **The first chunks of the files**: those of some files, and of the next file what the first calls return. -/
inductive FirstChunks (contents : List FileContent) (k₀ : κ) : List Chunk → Prop
  | files {done rest : List FileContent} {css : List (List Chunk)} {k : κ} : contents = done ++ rest →
      DrainsFiles done k₀ css k → FirstChunks contents k₀ css.flatten
  | calls {done rest : List FileContent} {content : FileContent} {css : List (List Chunk)} {k k' : κ} {cs : List Chunk} :
      contents = done ++ ([content] ++ rest) → DrainsFiles done k₀ css k →
      Returns (Chunker.reinitWithFile content k).2 cs k' → FirstChunks contents k₀ (css.flatten ++ cs)

/-- Where all files can be drained, their chunks begin with these. -/
theorem FirstChunks.prefix_flatten (h : FirstChunks contents k₀ cs) (hd : DrainsFiles contents k₀ css k) :
    cs <+: css.flatten := by
  cases h with
  | files hsplit hdone =>
    subst hsplit
    obtain ⟨css₁, css₂, k₁, rfl, hd₁, -⟩ := hd.split
    obtain ⟨rfl, -⟩ := hdone.unique hd₁
    rw [List.flatten_append]
    exact List.prefix_append _ _
  | calls hsplit hdone hreturns =>
    subst hsplit
    obtain ⟨css₁, css₂, k₁, rfl, hd₁, hd₂⟩ := hd.split
    obtain ⟨rfl, rfl⟩ := hdone.unique hd₁
    obtain ⟨css₃, css₄, k₃, rfl, hd₃, -⟩ := hd₂.split
    obtain ⟨cs', fuel, rfl, hdrain⟩ := hd₃.one
    obtain ⟨-, es, -, rfl⟩ := hreturns.rest hdrain
    rw [List.flatten_append, List.flatten_append, List.flatten_singleton, List.prefix_append_right_inj,
      List.append_assoc]
    exact List.prefix_append _ _

end First

section Stored

variable [Chunker κ] {k₀ k : κ} {m₀ : Members ι} {files : List (String × FileContent)} {css : List (List Chunk)}

/-- **The writer's state** is that of the first chunks. -/
theorem RunOK.stored {r : PipelineRun κ ι φ} (h : RunOK feature k₀ m₀ files r) :
    ∃ cs m, FirstChunks (files.map Prod.snd) k₀ cs ∧ processChunks feature cs m₀ = some m ∧
      (r.pipe.loc 4 : Writer) = m.writer := by
  cases h with
  | @idle done css₁ hcur hfiles hadded hall hq =>
    exact ⟨css₁.flatten, membersOf r.pipe.loc, .files (by rw [hfiles, List.map_append]) hadded.drained,
      hadded.processed, rfl⟩
  | @adding done css₁ k₁ name content l ins outs hfiles hadded hl hcur hi =>
    have hmap : files.map Prod.snd = done.map Prod.snd ++ ([content] ++ r.files.map Prod.snd) := by
      rw [hfiles]
      simp
    -- worker 0 has made the first chunks of the file, and the last worker has worked on the first of these
    have hmade : ∃ k', Makes (workers feature) (l 0) (outs 0) k' := by
      rcases hi.source with ⟨-, hmakes⟩ | ⟨-, k', hmakes, -⟩
      · exact ⟨_, hmakes⟩
      · exact ⟨k', hmakes⟩
    obtain ⟨k', hmakes⟩ := hmade
    obtain ⟨cs, hcs, hreturns⟩ := returns_workers hmakes
    obtain ⟨l', hp, hl'⟩ := hi.last_passed (show (workers (κ := κ) (ι := ι) feature).last = 3 + 1 from rfl)
    obtain ⟨k'', htake⟩ := hreturns.take (ins 4).length
    rw [hl] at htake
    rw [hcs, ← List.map_take] at hp
    refine ⟨css₁.flatten ++ cs.take (ins 4).length, membersOf l', .calls hmap hadded.drained htake, ?_, hl'.symm⟩
    have hproc := hadded.processed
    have hrest := passAll_workers _ hp
    unfold processChunks at hproc hrest ⊢
    rw [List.foldlM_append, hproc]
    exact hrest

variable [LawfulChunker κ] {index : ι} {cacheSize : ℕ}

/-- At the locks. -/
theorem LockedRun.stored {r : LockedRun κ ι φ} (hk₀ : Chunker.nextChunkId k₀ = 0) {schedule : List Actor}
    (hr : LockedRun.exec feature schedule (.new k₀ index cacheSize files) = some r) :
    ∃ cs m, FirstChunks (files.map Prod.snd) k₀ cs ∧
      processChunks feature cs ⟨{}, index, { storage := .new cacheSize }⟩ = some m ∧
      (r.pipe.loc 4 : Writer) = m.writer := by
  obtain ⟨schedule', q, -, hexec, h⟩ := exec_implements feature k₀ index cacheSize files schedule hr
  have hok := exec_ok rfl schedule' (ChunkGrouping.runOK_new feature hk₀ index cacheSize files) hexec
  rw [← h.abstracts.loc]
  exact hok.stored

/-- **When all files have been added**, all chunks have been processed. -/
theorem PipelineRun.processed {r : PipelineRun κ ι φ} (hk₀ : Chunker.nextChunkId k₀ = 0)
    (hd : DrainsFiles (files.map Prod.snd) k₀ css k) {schedule : List Actor}
    (hr : PipelineRun.exec feature schedule (.new k₀ index cacheSize files) = some r) (hcurrent : r.current = none)
    (hfiles : r.files = []) :
    processChunks feature css.flatten ⟨{}, index, { storage := .new cacheSize }⟩ = some (membersOf r.pipe.loc) := by
  obtain ⟨css', metas, hadded⟩ := LockedRun.added_queues hk₀ hr hcurrent hfiles
  obtain ⟨rfl, -⟩ := hadded.drained.unique hd
  exact hadded.processed

/-- At the locks. -/
theorem LockedRun.processed {r : LockedRun κ ι φ} (hk₀ : Chunker.nextChunkId k₀ = 0)
    (hd : DrainsFiles (files.map Prod.snd) k₀ css k) {schedule : List Actor}
    (hr : LockedRun.exec feature schedule (.new k₀ index cacheSize files) = some r) (hadding : r.adding = false)
    (hfiles : r.files = []) :
    processChunks feature css.flatten ⟨{}, index, { storage := .new cacheSize }⟩ = some (membersOf r.pipe.loc) := by
  obtain ⟨css', metas, hadded⟩ := LockedRun.added hk₀ hr hadding hfiles
  obtain ⟨rfl, -⟩ := hadded.drained.unique hd
  exact hadded.processed

end Stored

/-! ## The counters -/

/-- What a call writes, and as what. -/
def StoreOp.wrote : StoreOp → Option (UInt8 × Chunk)
  | writeBase chunk => some (BaseChunk, chunk)
  | writeDelta chunk _ => some (DeltaChunk, chunk)
  | writeDuplicate chunk _ => some (DuplicateChunk, chunk)
  | _ => none

/-- How many chunks were written as `type`. -/
def countOf (type : UInt8) (ws : List (UInt8 × Chunk)) : ℕ := ws.countP fun w => w.1 = type

/-- Their bytes. -/
def lenOf (type : UInt8) (ws : List (UInt8 × Chunk)) : ℕ := ((ws.filter fun w => w.1 = type).map fun w => w.2.len).sum

section Counters

variable {type : UInt8} {c : Chunk} {ws : List (UInt8 × Chunk)}

@[simp] theorem countOf_concat (t : UInt8) :
    countOf t (ws ++ [(type, c)]) = countOf t ws + if type = t then 1 else 0 := by
  simp [countOf, List.countP_append, List.countP_cons]

@[simp] theorem lenOf_concat (t : UInt8) :
    lenOf t (ws ++ [(type, c)]) = lenOf t ws + if type = t then c.len else 0 := by
  unfold lenOf
  rw [List.filter_append, List.map_append, List.sum_append]
  split <;> simp_all

/-- **The counters** are those of the writes so far. -/
structure Accounted (w : Writer) (ws : List (UInt8 × Chunk)) : Prop where
  wrote : w.calls.filterMap StoreOp.wrote = ws
  origin : w.totals.totalSizeOrigin = (ws.map fun w => w.2.len).sum
  compressed : w.totals.totalSizeCompressed = lenOf BaseChunk ws + lenOf DeltaChunk ws
  base : w.baseChunkCount = .ofNat (countOf BaseChunk ws)
  delta : w.deltaChunkCount = .ofNat (countOf DeltaChunk ws)
  duplicate : w.duplicateChunkCount = .ofNat (countOf DuplicateChunk ws)
  before : w.chunkSizeBeforeDelta = lenOf DeltaChunk ws
  after : w.chunkSizeAfterDelta = lenOf DeltaChunk ws
  processed : w.processedChunk = ws.length

omit [Inhabited φ] in
/-- **A write** counts one more. -/
theorem Accounted.write {x : Context φ} {w w' : Writer} (h : Accounted w ws) (hw : chunkWriteWork x w = some w') :
    Accounted w' (ws ++ [(x.chunkType, x.chunk)]) := by
  have hbd : (BaseChunk : UInt8) ≠ DeltaChunk := by decide
  have hbu : (BaseChunk : UInt8) ≠ DuplicateChunk := by decide
  have hdu : (DeltaChunk : UInt8) ≠ DuplicateChunk := by decide
  simp only [chunkWriteWork, Option.bind_eq_bind, Option.bind_eq_some_iff, Option.some.injEq] at hw
  obtain ⟨w₁, hw, rfl⟩ := hw
  unfold Writer.switchType at hw
  split at hw
  · rename_i hdup
    simp only [Writer.duplicate, Option.bind_eq_bind, Option.bind_eq_some_iff, Option.some.injEq] at hw
    obtain ⟨s, -, rfl⟩ := hw
    rw [hdup]
    constructor <;> simp [StoreOp.wrote, h.wrote, h.origin, h.compressed, h.base, h.delta, h.duplicate, h.before,
      h.after, h.processed, hbu.symm, hdu.symm, UInt32.ofNat_add]
  split at hw
  · rename_i hbase
    rw [← Option.some.inj hw, hbase]
    constructor <;> simp [Writer.base, StoreOp.wrote, h.wrote, h.origin, h.compressed, h.base, h.delta, h.duplicate,
      h.before, h.after, h.processed, hbu, hbd, UInt32.ofNat_add]
    omega
  split at hw
  · rename_i hdelta
    simp only [Writer.delta, Option.bind_eq_bind, Option.bind_eq_some_iff, Option.some.injEq] at hw
    obtain ⟨⟨c, s⟩, hc, rfl⟩ := hw
    obtain rfl := getDeltaEncodedChunk_fst hc
    rw [hdelta]
    constructor <;> simp [StoreOp.wrote, h.wrote, h.origin, h.compressed, h.base, h.delta, h.duplicate, h.before,
      h.after, h.processed, hdu, hbd.symm, UInt32.ofNat_add]
    · rfl
    · omega
  · cases hw

/-- **A chunk** is written as something. -/
theorem Accounted.process {m m' : Members ι} (h : Accounted m.writer ws)
    (hp : processChunk feature m c = some m') : ∃ type, Accounted m'.writer (ws ++ [(type, c)]) := by
  simp only [processChunk, Option.bind_eq_bind, Option.bind_eq_some_iff, Option.some.injEq] at hp
  obtain ⟨⟨x, index⟩, hmatch, w, hw, rfl⟩ := hp
  have hchunk : x.chunk = c := by
    rw [(chunkMatchWork_ok (ι := ι) hmatch).1]
    unfold featureCalcWork dedupWork
    dsimp only
    split <;> split <;> rfl
  exact ⟨x.chunkType, hchunk ▸ h.write hw⟩

end Counters

/-! ## The records -/

/-- The contents of the chunks. -/
def contents (es : List (Chunk × ChunkMeta)) : List (List UInt8) := es.map fun e => e.1.buf

/-- Where a duplicate of content `i` leads: `WriteDuplicateChunk` looks in record 0 or 1. -/
def lookedUp (cs : List (List UInt8)) (i : ℕ) : ℕ :=
  if i / 16 % 2 = 1 ∧ cs[1]? ≠ cs[0]? then (cs.headD []).length else 0

/-- Where record `k` leads, for the chunk `c`: for a new content, behind those before it. -/
structure PlacedAt (cs : List (List UInt8)) (k : ℕ) (c : Chunk) (r : ChunkMeta) : Prop where
  fresh : cs.idxOf c.buf = k → r.type ≠ DuplicateChunk ∧ r.offset = .ofNat (cs.take k).eraseDups.flatten.length
  again : cs.idxOf c.buf < k → r.type = DuplicateChunk ∧ r.offset = .ofNat (lookedUp cs (cs.idxOf c.buf))

/-- **What lies where**: the chunks that are no duplicates are those with a new content, and lie in the data file one
behind the other. -/
structure Placed (es : List (Chunk × ChunkMeta)) (data : List UInt8) : Prop where
  kept : (es.filter fun e => e.2.type ≠ DuplicateChunk).map (fun e => e.1.buf) = (contents es).eraseDups
  data : data = (contents es).eraseDups.flatten
  placed : ∀ (k : ℕ) (c : Chunk) (r : ChunkMeta), es[k]? = some (c, r) → PlacedAt (contents es) k c r

section Records

variable {es : List (Chunk × ChunkMeta)} {data : List UInt8} {c : Chunk} {r : ChunkMeta}

@[simp] theorem contents_concat (c : Chunk) (r : ChunkMeta) : contents (es ++ [(c, r)]) = contents es ++ [c.buf] := by
  simp [contents]

@[simp] theorem length_contents : (contents es).length = es.length := by simp [contents]

theorem mem_contents {k : ℕ} (h : es[k]? = some (c, r)) : c.buf ∈ contents es :=
  List.mem_map.2 ⟨(c, r), List.mem_of_getElem? h, rfl⟩

theorem getElem?_contents {k : ℕ} (h : es[k]? = some (c, r)) : (contents es)[k]? = some c.buf := by
  unfold contents
  rw [List.getElem?_map, h]
  rfl

/-- One more chunk does not change where a duplicate leads. -/
theorem lookedUp_concat {cs : List (List UInt8)} {i : ℕ} (hi : i < cs.length) (x : List UInt8) :
    lookedUp (cs ++ [x]) i = lookedUp cs i := by
  unfold lookedUp
  by_cases h : i / 16 % 2 = 1
  · -- there are more than 16 contents then
    have hhead : (cs ++ [x]).headD [] = cs.headD [] := by
      cases cs with
      | nil => simp at hi
      | cons y ys => rfl
    rw [List.getElem?_append_left (by omega), List.getElem?_append_left (by omega), hhead]
  · simp [h]

theorem PlacedAt.concat {cs : List (List UInt8)} {k : ℕ} (h : PlacedAt cs k c r) (hk : cs[k]? = some c.buf)
    (x : List UInt8) : PlacedAt (cs ++ [x]) k c r := by
  have hlt := (List.getElem?_eq_some_iff.1 hk).1
  have hidx : (cs ++ [x]).idxOf c.buf = cs.idxOf c.buf := idxOf_append_of_mem (List.mem_of_getElem? hk)
  refine ⟨fun hi => ?_, fun hi => ?_⟩
  · rw [List.take_append_of_le_length hlt.le]
    exact h.fresh (hidx ▸ hi)
  · rw [hidx] at hi ⊢
    rw [lookedUp_concat (by omega)]
    exact h.again hi

theorem placed_nil : Placed [] [] := ⟨rfl, rfl, by simp⟩

/-- **A new content** goes to the end of the data file. -/
theorem Placed.fresh (h : Placed es data) (hnew : c.buf ∉ contents es) (ht : r.type ≠ DuplicateChunk)
    (ho : r.offset = .ofNat data.length) : Placed (es ++ [(c, r)]) (data ++ c.buf) := by
  refine ⟨?_, ?_, fun k c' r' hk => ?_⟩
  · rw [List.filter_append, List.map_append, h.kept, contents_concat, eraseDups_concat_of_notMem hnew]
    simp [ht]
  · rw [contents_concat, eraseDups_concat_of_notMem hnew, List.flatten_append, h.data]
    simp
  · rw [contents_concat]
    rcases getElem?_concat.1 hk with hk | ⟨rfl, he⟩
    · exact (h.placed k c' r' hk).concat (getElem?_contents hk) c.buf
    · obtain ⟨rfl, rfl⟩ := Prod.mk.inj he
      refine ⟨fun _ => ⟨ht, by rw [ho, h.data, List.take_left' length_contents]⟩, fun hi => ?_⟩
      rw [idxOf_concat_of_notMem hnew, length_contents] at hi
      exact absurd hi (lt_irrefl _)

/-- **Record 0 or 1** has the offset a duplicate gets. -/
theorem Placed.lookedUp (h : Placed es data) {i : ℕ} (hi : i < es.length) (hk : es[i / 16 % 2]? = some (c, r)) :
    r.offset = .ofNat (lookedUp (contents es) i) := by
  have hmem := mem_contents hk
  have hget := getElem?_contents hk
  unfold ChunkGrouping.lookedUp
  by_cases hbit : i / 16 % 2 = 1
  · rw [hbit] at hk hget
    obtain ⟨e₀, e₁, rest, rfl⟩ : ∃ e₀ e₁ rest, es = e₀ :: e₁ :: rest := by
      match es, hi with
      | [], hi => simp at hi
      | [_], hi => simp at hi; omega
      | e₀ :: e₁ :: rest, _ => exact ⟨e₀, e₁, rest, rfl⟩
    obtain rfl : e₁ = (c, r) := Option.some.inj hk
    by_cases heq : c.buf = e₀.1.buf
    · -- record 1 is a duplicate of record 0
      have hidx : (contents (e₀ :: (c, r) :: rest)).idxOf c.buf = 0 := by simp [contents, heq]
      rw [((h.placed 1 c r rfl).again (by rw [hidx]; omega)).2, hidx, if_neg (by simp [contents, heq])]
      rfl
    · have hidx : (contents (e₀ :: (c, r) :: rest)).idxOf c.buf = 1 := by
        simp [contents, Ne.symm heq]
      rw [((h.placed 1 c r rfl).fresh hidx).2, if_pos ⟨hbit, by simp [contents, heq]⟩]
      simp [contents, List.eraseDups_cons]
  · have hzero : i / 16 % 2 = 0 := by omega
    rw [hzero] at hk hget
    have hidx : (contents es).idxOf c.buf = 0 := Nat.le_zero.1 (idxOf_le_of_getElem? hget)
    rw [((h.placed 0 c r hk).fresh hidx).2, if_neg (by simp [hzero])]
    rfl

/-- **A content that is there already** is not stored again. -/
theorem Placed.again (h : Placed es data) (hmem : c.buf ∈ contents es) (ht : r.type = DuplicateChunk)
    (ho : r.offset = .ofNat (ChunkGrouping.lookedUp (contents es) ((contents es).idxOf c.buf))) :
    Placed (es ++ [(c, r)]) data := by
  have hlt := List.idxOf_lt_length_of_mem hmem
  refine ⟨?_, by rw [contents_concat, eraseDups_concat_of_mem hmem, h.data], fun k c' r' hk => ?_⟩
  · rw [List.filter_append, List.map_append, h.kept, contents_concat, eraseDups_concat_of_mem hmem]
    simp [ht]
  · rw [contents_concat]
    rcases getElem?_concat.1 hk with hk | ⟨rfl, he⟩
    · exact (h.placed k c' r' hk).concat (getElem?_contents hk) c.buf
    · obtain ⟨rfl, rfl⟩ := Prod.mk.inj he
      refine ⟨fun hi => ?_, fun _ => ⟨ht, by rw [idxOf_append_of_mem hmem, lookedUp_concat hlt, ho]⟩⟩
      rw [idxOf_append_of_mem hmem] at hi
      rw [hi, length_contents] at hlt
      exact absurd hlt (lt_irrefl _)

/-- The records are determined. -/
theorem RecordsOK.unique {s : Storage} {ms ms' : List ChunkMeta} (h : RecordsOK s ms) (h' : RecordsOK s ms')
    (hlen : ms.length = ms'.length) : ms = ms' := by
  refine List.ext_getElem hlen fun k hk hk' => ?_
  have hread := h.readRecord (List.getElem?_eq_getElem hk)
  rw [h'.readRecord (List.getElem?_eq_getElem hk')] at hread
  exact (Option.some.inj hread).symm

end Records

/-! ## Runs -/

section Run

variable [LawfulIndex ι φ]

/-- **Chunk after chunk**, as long as their ids do not wrap and no two have the same digest: what holds of the new
members and is kept by each chunk holds after all of them. -/
theorem membersOK_induction (p : FeatureIndex ι φ) (cacheSize : ℕ) {I : List (Chunk × ChunkMeta) → Members ι → Prop}
    (hnew : I [] ⟨{}, p.index, { storage := .new cacheSize }⟩)
    (hstep : ∀ es m c r m', MembersOK φ es m → es.length < 2 ^ 32 → c.id = es.length →
      (∀ e ∈ es, Sha1.hash e.1.buf = Sha1.hash c.buf → e.1.buf = c.buf) → processChunk p.feature m c = some m' →
      MembersOK φ (es ++ [(c, r)]) m' → I es m → I (es ++ [(c, r)]) m')
    (cs : List Chunk) (hids : cs.map Chunk.id = idsFrom 0 cs.length) (hcount : cs.length ≤ 2 ^ 32)
    (hsha : ∀ c ∈ cs, ∀ c' ∈ cs, Sha1.hash c.buf = Sha1.hash c'.buf → c.buf = c'.buf) {m : Members ι}
    (hp : processChunks p.feature cs ⟨{}, p.index, { storage := .new cacheSize }⟩ = some m) :
    ∃ es, es.map Prod.fst = cs ∧ MembersOK φ es m ∧ I es m := by
  have hpos : ∀ (k : ℕ) (c : Chunk), cs[k]? = some c → c.id = k := by
    intro k c hk
    have hlt := (List.getElem?_eq_some_iff.1 hk).1
    rw [getElem?_id (by omega) hids hk, Nat.zero_add, Nat.mod_eq_of_lt (by omega)]
  clear hids
  induction cs using List.reverseRecOn generalizing m with
  | nil =>
    rw [← Option.some.inj hp]
    exact ⟨[], rfl, membersOK_new p cacheSize, hnew⟩
  | append_singleton cs c ih =>
    rw [List.length_append, List.length_singleton] at hcount
    obtain ⟨m₁, h₁, hc⟩ := processChunks_append hp
    obtain ⟨es, rfl, hes, hI⟩ := ih (by omega)
      (fun x hx y hy => hsha x (List.mem_append_left _ hx) y (List.mem_append_left _ hy)) h₁
      fun k x hk => hpos k x (getElem?_concat.2 (.inl hk))
    rw [List.length_map] at hcount
    unfold processChunks at hc
    rw [List.foldlM_cons, Option.bind_eq_bind, Option.bind_eq_some_iff] at hc
    obtain ⟨m₂, hc, he⟩ := hc
    obtain rfl := Option.some.inj he
    have hid : c.id = es.length := hpos _ c (getElem?_concat.2 (.inr ⟨by rw [List.length_map], rfl⟩))
    have hdigest : ∀ e ∈ es, Sha1.hash e.1.buf = Sha1.hash c.buf → e.1.buf = c.buf := fun e he =>
      hsha _ (List.mem_append_left _ (List.mem_map_of_mem he)) c (by simp)
    obtain ⟨r, hr⟩ := membersOK_step p.fits hes hid (by omega) hdigest hc
    exact ⟨es ++ [(c, r)], by rw [List.map_append]; rfl, hr, hstep es m₁ c r m₂ hes (by omega) hid hdigest hc hr hI⟩

variable {es : List (Chunk × ChunkMeta)} {c : Chunk} {r : ChunkMeta} {m m' : Members ι}

/-- The first entry with a digest is the first with its bytes. -/
theorem SeenOK.idxOf {d : Dedup} (h : SeenOK es d) {id : ℕ}
    (hsha : ∀ e ∈ es, Sha1.hash e.1.buf = Sha1.hash c.buf → e.1.buf = c.buf)
    (hget : get? (Sha1.hash c.buf) d.mp = some id) : c.buf ∈ contents es ∧ (contents es).idxOf c.buf = id := by
  obtain ⟨⟨c', r', hid, hh, -⟩, hle⟩ := h.first _ _ hget
  have hbuf : c'.buf = c.buf := hsha _ (List.mem_of_getElem? hid) hh
  have hmem : c.buf ∈ contents es := hbuf ▸ mem_contents hid
  refine ⟨hmem, le_antisymm (idxOf_le_of_getElem? (hbuf ▸ getElem?_contents hid)) ?_⟩
  have hfirst := getElem?_idxOf hmem
  unfold contents at hfirst
  rw [List.getElem?_map, Option.map_eq_some_iff] at hfirst
  obtain ⟨⟨c₁, r₁⟩, he, hb⟩ := hfirst
  exact hle _ c₁ r₁ he (by rw [hb])

/-- **A chunk is placed.** -/
theorem Placed.process (h : Placed es m.writer.storage.dataFile.bytes) (hm : MembersOK φ es m)
    (hid : c.id = es.length) (hsha : ∀ e ∈ es, Sha1.hash e.1.buf = Sha1.hash c.buf → e.1.buf = c.buf)
    (hp : processChunk feature m c = some m') (hm' : MembersOK φ (es ++ [(c, r)]) m') :
    Placed (es ++ [(c, r)]) m'.writer.storage.dataFile.bytes := by
  have hrec := hm'.writer.records
  rw [List.map_append, List.map_singleton] at hrec
  -- the record that was written is the one there
  have hr : ∀ {r'}, RecordsOK m'.writer.storage (es.map Prod.snd ++ [r']) → r = r' := fun hrec' =>
    (List.cons.inj (List.append_inj' (hrec.unique hrec' (by simp)) rfl).2).1
  have hne : ∀ type, type = BaseChunk ∨ type = DeltaChunk → type ≠ DuplicateChunk := by
    rintro type (rfl | rfl) <;> decide
  rcases processChunk_cases hp with ⟨id, hget, -, -, -, hw, -⟩ | ⟨hget, -, hrest⟩
  · obtain ⟨hmem, hidx⟩ := hm.seen.idxOf hsha hget
    have hlt := List.idxOf_lt_length_of_mem hmem
    rw [hidx, length_contents] at hlt
    have hlook : id / 16 % 2 < es.length := and_sizeof_lt hlt
    have hentry : es[id / 16 % 2]? = some (es[id / 16 % 2].1, es[id / 16 % 2].2) := List.getElem?_eq_getElem hlook
    obtain ⟨s', hs', hdata, hrec'⟩ := writeDuplicate_ok hm.writer.records
      (m := es[id / 16 % 2].2) (by rw [List.getElem?_map, hentry]; rfl) c
    obtain rfl := Option.some.inj (hs'.symm.trans hw)
    rw [hdata, hr hrec']
    refine h.again hmem rfl ?_
    rw [hidx, ← h.lookedUp hlt hentry]
    rfl
  · obtain ⟨-, hnew⟩ := hm.seen.new hid hget
    have hmem : c.buf ∉ contents es := by
      rintro hmem
      obtain ⟨⟨c', r'⟩, he, hbuf⟩ := List.mem_map.1 hmem
      exact hnew c' r' he hbuf
    rcases hrest with ⟨-, -, hw, -⟩ | ⟨b, s, -, -, he, hw, -⟩
    · obtain ⟨hrec', hdata⟩ := hm.writer.records.writeChunk BaseChunk c.id c
      obtain rfl := hr (by rw [hw]; exact hrec')
      rw [hw, show (m.writer.storage.writeBaseChunk c).dataFile.bytes = _ from hdata]
      exact h.fresh hmem (hne _ (.inl rfl)) rfl
    · obtain ⟨cache, rfl⟩ := hm.writer.records.encode he
      obtain ⟨hrec', hdata⟩ := (hm.writer.records.withCache cache).writeChunk DeltaChunk b c
      obtain rfl := hr (by rw [hw]; exact hrec')
      rw [hw, show (Storage.writeDeltaChunk c b _).2.dataFile.bytes = _ from hdata]
      exact h.fresh hmem (hne _ (.inr rfl)) rfl

theorem map_fst_wrote (calls : List StoreOp) :
    (calls.filterMap StoreOp.wrote).map Prod.fst = calls.filterMap StoreOp.typeWritten := by
  rw [List.map_filterMap]
  congr 1
  funext op
  cases op <;> rfl

/-- **All chunks are placed and counted.** -/
theorem placed_run (p : FeatureIndex ι φ) (cacheSize : ℕ) (cs : List Chunk)
    (hids : cs.map Chunk.id = idsFrom 0 cs.length) (hcount : cs.length ≤ 2 ^ 32)
    (hsha : ∀ c ∈ cs, ∀ c' ∈ cs, Sha1.hash c.buf = Sha1.hash c'.buf → c.buf = c'.buf) {m : Members ι}
    (hp : processChunks p.feature cs ⟨{}, p.index, { storage := .new cacheSize }⟩ = some m) :
    ∃ es, es.map Prod.fst = cs ∧ MembersOK φ es m ∧ Placed es m.writer.storage.dataFile.bytes ∧
      Accounted m.writer (es.map fun e => (e.2.type, e.1)) := by
  obtain ⟨es, hes, hm, hplaced, ws, hws, hchunks⟩ := membersOK_induction p cacheSize
    (I := fun es m => Placed es m.writer.storage.dataFile.bytes ∧
      ∃ ws, Accounted m.writer ws ∧ ws.map Prod.snd = es.map Prod.fst)
    ⟨placed_nil, [], ⟨rfl, rfl, rfl, rfl, rfl, rfl, rfl, rfl, rfl⟩, rfl⟩
    (fun es m c r m' hm _ hid hsha hp hm' hI => by
      obtain ⟨hplaced, ws, hws, hchunks⟩ := hI
      obtain ⟨type, htype⟩ := hws.process hp
      exact ⟨hplaced.process hm hid hsha hp hm', _, htype, by simp [hchunks]⟩)
    cs hids hcount hsha hp
  refine ⟨es, hes, hm, hplaced, ?_⟩
  have htypes : ws.map Prod.fst = es.map fun e => e.2.type := by
    rw [← hm.writer.types, ← map_fst_wrote, hws.wrote]
  have hzip : ws = es.map fun e => (e.2.type, e.1) := by
    rw [List.zip_of_prod htypes hchunks, List.zip_map']
  exact hzip ▸ hws

end Run

/-! ## What is reported -/

/-- What the counters and files say of the contents `cs` stored so far. -/
structure Reports (w : Writer) (cs : List (List UInt8)) : Prop where
  processed : w.processedChunk = cs.length
  origin : w.totals.totalSizeOrigin = cs.flatten.length
  data : w.storage.dataFile.bytes = cs.eraseDups.flatten
  compressed : w.totals.totalSizeCompressed = cs.eraseDups.flatten.length
  records : w.storage.metaFile.bytes.length = sizeofChunkMeta * cs.length
  stored : w.baseChunkCount + w.deltaChunkCount = .ofNat cs.eraseDups.length
  duplicate : w.duplicateChunkCount = .ofNat (cs.length - cs.eraseDups.length)
  delta : w.chunkSizeBeforeDelta = w.chunkSizeAfterDelta

/-- Bases and deltas are the chunks that are no duplicates. -/
theorem split_types {es : List (Chunk × ChunkMeta)}
    (h : ∀ e ∈ es, e.2.type = BaseChunk ∨ e.2.type = DeltaChunk ∨ e.2.type = DuplicateChunk) :
    let ws := es.map fun e => (e.2.type, e.1)
    let kept := (es.filter fun e => e.2.type ≠ DuplicateChunk).map fun e => e.1.buf
    lenOf BaseChunk ws + lenOf DeltaChunk ws = kept.flatten.length ∧
      countOf BaseChunk ws + countOf DeltaChunk ws = kept.length ∧
      countOf DuplicateChunk ws + kept.length = es.length := by
  have hbd : (BaseChunk : UInt8) ≠ DeltaChunk := by decide
  have hbu : (BaseChunk : UInt8) ≠ DuplicateChunk := by decide
  have hdu : (DeltaChunk : UInt8) ≠ DuplicateChunk := by decide
  induction es using List.reverseRecOn with
  | nil => exact ⟨rfl, rfl, rfl⟩
  | append_singleton es e ih =>
    obtain ⟨h₁, h₂, h₃⟩ := ih fun e he => h e (List.mem_append_left _ he)
    dsimp only at h₁ h₂ h₃ ⊢
    rw [List.map_append, List.map_singleton, List.filter_append, List.map_append]
    simp only [lenOf_concat, countOf_concat, List.length_append, List.flatten_append]
    generalize (es.filter fun e => e.2.type ≠ DuplicateChunk).map (fun e => e.1.buf) = kept at h₁ h₂ h₃ ⊢
    rw [← h₁, ← h₂, ← h₃]
    rcases h e (by simp) with ht | ht | ht <;>
      simp [ht, hbd, hbd.symm, hbu, hbu.symm, hdu, hdu.symm, Chunk.len] <;> omega

/-- **The reports are right.** -/
theorem reports_run [LawfulIndex ι φ] (p : FeatureIndex ι φ) (cacheSize : ℕ) (cs : List Chunk)
    (hids : cs.map Chunk.id = idsFrom 0 cs.length) (hcount : cs.length ≤ 2 ^ 32)
    (hsha : ∀ c ∈ cs, ∀ c' ∈ cs, Sha1.hash c.buf = Sha1.hash c'.buf → c.buf = c'.buf) {m : Members ι}
    (hp : processChunks p.feature cs ⟨{}, p.index, { storage := .new cacheSize }⟩ = some m) :
    Reports m.writer (cs.map Chunk.buf) := by
  obtain ⟨es, rfl, hm, hplaced, hacc⟩ := placed_run p cacheSize cs hids hcount hsha hp
  have hcontents : (es.map Prod.fst).map Chunk.buf = contents es := by rw [List.map_map]; rfl
  have htypes : ∀ e ∈ es, e.2.type = BaseChunk ∨ e.2.type = DeltaChunk ∨ e.2.type = DuplicateChunk := by
    intro e he
    obtain ⟨k, hk⟩ := List.mem_iff_getElem?.1 he
    exact (hm.writer.founded.describes k e.1 e.2 hk).type
  obtain ⟨hlen, hstored, hdup⟩ := split_types htypes
  rw [hplaced.kept] at hlen hstored hdup
  rw [hcontents]
  refine ⟨by rw [hacc.processed]; simp, ?_, hplaced.data, by rw [hacc.compressed, hlen], ?_, ?_, ?_,
    by rw [hacc.before, hacc.after]⟩
  · rw [hacc.origin, List.map_map]
    simp [contents, Chunk.len, List.length_flatten, Function.comp_def]
  · rw [hm.writer.records.metaBytes, Batching.length_flatMap fun r _ => length_toBytes r]
    simp [Nat.mul_comm]
  · rw [hacc.base, hacc.delta, ← UInt32.ofNat_add, hstored]
  · rw [hacc.duplicate, length_contents, ← hdup, Nat.add_sub_cancel]

/-! ## Any schedule -/

section Locks

variable {κ ι φ : Type} [Chunker κ] [LawfulChunker κ] [Index ι φ] [Inhabited φ]

omit [Index ι φ] [Inhabited φ] in
/-- The chunks are numbered on from 0. -/
theorem DrainsFiles.ids {contents : List FileContent} {k k' : κ} {css : List (List Chunk)}
    (h : DrainsFiles contents k css k') (hk : Chunker.nextChunkId k = 0) :
    css.flatten.map Chunk.id = idsFrom 0 css.flatten.length ∧ Chunker.nextChunkId k' = css.flatten.length % 2 ^ 32 := by
  induction h with
  | nil => exact ⟨rfl, hk⟩
  | @concat contents content k k₁ k₂ css cs fuel _ hd ih =>
    obtain ⟨hids, hnext⟩ := ih hk
    obtain ⟨hcs, hlast⟩ := ids_drainLoop _ _ hd
    rw [LawfulChunker.next_reinit, hnext] at hcs hlast
    rw [iterate_nextId (Nat.mod_lt _ (by omega))] at hlast
    rw [List.flatten_append, List.flatten_singleton, List.map_append, hids, hcs, List.length_append, idsFrom_add,
      iterate_nextId (by omega), Nat.zero_add]
    exact ⟨rfl, by rw [hlast, Nat.mod_add_mod]⟩

omit [Index ι φ] [Inhabited φ] in
/-- What the calls return goes on from the counter. -/
theorem Returns.ids {k k' : κ} {cs : List Chunk} (h : Returns k cs k') :
    cs.map Chunk.id = idsFrom (Chunker.nextChunkId k) cs.length ∧
      Chunker.nextChunkId k' = nextId^[cs.length] (Chunker.nextChunkId k) := by
  induction h with
  | nil => exact ⟨rfl, rfl⟩
  | @concat k₁ k₂ cs c _ hc ih =>
    obtain ⟨hids, hnext⟩ := ih
    obtain ⟨hid, hone⟩ := LawfulChunker.next_some hc
    constructor
    · rw [List.map_append, hids, List.map_singleton, hid, hnext, List.length_append, idsFrom_add]
      rfl
    · rw [hone, hnext, List.length_append, List.length_singleton, Function.iterate_succ_apply']

omit [Index ι φ] [Inhabited φ] in
theorem FirstChunks.ids {contents : List FileContent} {k₀ : κ} {cs : List Chunk} (h : FirstChunks contents k₀ cs)
    (hk₀ : Chunker.nextChunkId k₀ = 0) : cs.map Chunk.id = idsFrom 0 cs.length := by
  cases h with
  | files _ hdone => exact (hdone.ids hk₀).1
  | calls _ hdone hreturns =>
    obtain ⟨hids, hnext⟩ := hdone.ids hk₀
    have hcs := hreturns.ids.1
    rw [LawfulChunker.next_reinit, hnext] at hcs
    rw [List.map_append, hids, hcs, List.length_append, idsFrom_add, iterate_nextId (by omega), Nat.zero_add]

/-- **At any time the store is that of the first chunks.** In any state of any run at the locks, whoever is heard,
the write worker's members and files are those of taking some first chunks of the files, one after the other,
through dedup, feature, match and write. -/
theorem locks_stored (feature : Chunk → φ) {k₀ : κ} (hk₀ : Chunker.nextChunkId k₀ = 0) (index : ι) (cacheSize : ℕ)
    (files : List (String × FileContent)) (schedule : List Actor) (r : LockedRun κ ι φ)
    (hr : LockedRun.exec feature schedule (.new k₀ index cacheSize files) = some r) :
    ∃ cs m, FirstChunks (files.map Prod.snd) k₀ cs ∧
      processChunks feature cs ⟨{}, index, { storage := .new cacheSize }⟩ = some m ∧
      (r.pipe.loc 4 : Writer) = m.writer :=
  LockedRun.stored hk₀ hr

/-- **At any time the reports are right.** In any state of any run at the locks, with either feature and index, there
are first chunks of the files whose contents the counters and files of the write worker report, if they are at most
`2^32` without a collision: `meta_` has a record for each, `data_` has each content once, in the order of their first
occurrences, and the compressed size is the length of `data_`. -/
theorem locks_account [LawfulIndex ι φ] (p : FeatureIndex ι φ) {k₀ : κ} (hk₀ : Chunker.nextChunkId k₀ = 0)
    (cacheSize : ℕ) (files : List (String × FileContent)) (schedule : List Actor) (r : LockedRun κ ι φ)
    (hr : LockedRun.exec p.feature schedule (.new k₀ p.index cacheSize files) = some r) :
    ∃ cs, FirstChunks (files.map Prod.snd) k₀ cs ∧ (cs.length ≤ 2 ^ 32 →
      (∀ c ∈ cs, ∀ c' ∈ cs, Sha1.hash c.buf = Sha1.hash c'.buf → c.buf = c'.buf) →
      Reports (r.pipe.loc 4) (cs.map Chunk.buf)) := by
  obtain ⟨cs, m, hfirst, hm, hw⟩ := LockedRun.stored hk₀ hr
  exact ⟨cs, hfirst, fun hcount hsha => hw ▸ reports_run p cacheSize cs (hfirst.ids hk₀) hcount hsha hm⟩

/-- The first two are stored, and the third waits for worker 3. -/
theorem locks_stored_two : ∃ (r : LockedRun FastCDC BestFitIndex (Feature ℚ)) (cs : List Chunk) (m : Members BestFitIndex),
    LockedRun.exec OdessSubfeatures.call (LockedRun.interleaved.take 160)
      (.new (FastCDC.new 1 1 0) (BestFitIndex.new (.byInsertion _) 12) 1 [("a", some [7, 8, 8])]) = some r ∧
    (r.pipe.queue 2).length = 1 ∧
    (r.pipe.loc 4 : Writer).calls = [.writeBase ⟨[7], 0⟩, .encode ⟨[8], 1⟩ 0, .writeDelta ⟨[8], 1⟩ 0] ∧
    cs <+: [⟨[7], 0⟩, ⟨[8], 1⟩, ⟨[8], 2⟩] ∧ processChunks (OdessSubfeatures.call : Chunk → Feature ℚ) cs
      ⟨{}, BestFitIndex.new (.byInsertion _) 12, { storage := .new 1 }⟩ = some m ∧
    (r.pipe.loc 4 : Writer) = m.writer := by
  have hrun : ((LockedRun.exec (OdessSubfeatures.call : Chunk → Feature ℚ) (LockedRun.interleaved.take 160)
      (.new (FastCDC.new 1 1 0) (BestFitIndex.new (.byInsertion _) 12) 1 [("a", some [7, 8, 8])])).map
        fun r => ((r.pipe.queue 2).length, (r.pipe.loc 4 : Writer).calls)) =
      some (1, [.writeBase ⟨[7], 0⟩, .encode ⟨[8], 1⟩ 0, .writeDelta ⟨[8], 1⟩ 0]) := by decide +kernel
  obtain ⟨r, hr, he⟩ := Option.map_eq_some_iff.1 hrun
  obtain ⟨hqueue, hcalls⟩ := Prod.mk.inj he
  obtain ⟨cs, m, hfirst, hm, hw⟩ := locks_stored (OdessSubfeatures.call : Chunk → Feature ℚ) rfl _ 1
    [("a", some [7, 8, 8])] _ r hr
  obtain ⟨k, hd⟩ := drainsFiles_three
  exact ⟨r, cs, m, hr, hqueue, hcalls, hfirst.prefix_flatten hd, hm, hw⟩

/-- All three are stored, and are reported before the workers have returned. -/
theorem locks_account_three : ∃ r : LockedRun FastCDC BestFitIndex (Feature ℚ),
    LockedRun.exec OdessSubfeatures.call (LockedRun.interleaved.take 185)
      (.new (FastCDC.new 1 1 0) (BestFitIndex.new (.byInsertion _) 12) 1 [("a", some [7, 8, 8])]) = some r ∧
    (r.pipe.loc 4 : Writer).storage.dataFile.bytes = [7, 8] ∧ Reports (r.pipe.loc 4) [[7], [8], [8]] := by
  have hrun : ((LockedRun.exec (OdessSubfeatures.call : Chunk → Feature ℚ) (LockedRun.interleaved.take 185)
      (.new (FastCDC.new 1 1 0) (BestFitIndex.new (.byInsertion _) 12) 1 [("a", some [7, 8, 8])])).map
        fun r => ((r.pipe.loc 4 : Writer).storage.dataFile.bytes, (r.pipe.loc 4 : Writer).processedChunk)) =
      some ([7, 8], 3) := by decide +kernel
  obtain ⟨r, hr, he⟩ := Option.map_eq_some_iff.1 hrun
  obtain ⟨hdata, hprocessed⟩ := Prod.mk.inj he
  obtain ⟨cs, hfirst, hreports⟩ := locks_account (FeatureIndex.bestfit (ρ := ℚ) (.byInsertion _)) rfl 1
    [("a", some [7, 8, 8])] _ r hr
  obtain ⟨k, hd⟩ := drainsFiles_three
  have hfront : cs <+: [⟨[7], 0⟩, ⟨[8], 1⟩, ⟨[8], 2⟩] := hfirst.prefix_flatten hd
  have hsha : ∀ c ∈ ([⟨[7], 0⟩, ⟨[8], 1⟩, ⟨[8], 2⟩] : List Chunk),
      ∀ c' ∈ ([⟨[7], 0⟩, ⟨[8], 1⟩, ⟨[8], 2⟩] : List Chunk),
      Sha1.hash c.buf = Sha1.hash c'.buf → c.buf = c'.buf := by decide +kernel
  have h := hreports (hfront.length_le.trans (by decide))
    fun c hc c' hc' => hsha c (hfront.subset hc) c' (hfront.subset hc')
  -- as many contents are reported as there are chunks
  have hlen := h.processed.symm.trans hprocessed
  rw [List.length_map] at hlen
  obtain rfl : cs = [⟨[7], 0⟩, ⟨[8], 1⟩, ⟨[8], 2⟩] := hfront.eq_of_length hlen
  exact ⟨r, hr, hdata, h⟩

end Locks

end ChunkGrouping
