import ChunkGrouping.Proof.PipelineAgain
import ChunkGrouping.Proof.Restore

/-!
# Files come back from the pipeline

The records of the pipeline have the start and the end of each file, in 32 bits. A record of a
duplicate leads where `WriteDuplicateChunk` looked, so what comes back is known, and is not
always what was added.

* `step_metas`: the records of files at any time.
* `closedRanges_metasOf`: from start to end.
* `Placed.reads`, `readBack_run`: what every record leads to.
* `pipeline_restores_iff`: any schedule.
-/

namespace ChunkGrouping

open InsertMap CFile BoundedPipeline PipelineRun FirstOccurrence

/-- From start to end, for the records of the pipeline, in 32 bits. -/
def closedRanges (ms : List FileMeta) : List (String × ℕ × ℕ) :=
  ms.map fun m => (m.fileName, m.startChunkId, (m.endChunkId.getD 0 + 1 + (2 ^ 32 - m.startChunkId)) % 2 ^ 32)

/-! ## The records of files -/

section Metas

variable {κ ι φ : Type} [Chunker κ] [LawfulChunker κ] [Index ι φ] [Inhabited φ] {feature : Chunk → φ} {k₀ : κ}
  {m₀ : Members ι} {files : List (String × FileContent)}

/-- The records of files whose chunks are numbered on from `n`. -/
def metasOf : ℕ → List (String × FileContent) → List (List Chunk) → List FileMeta
  | n, (name, _) :: files, cs :: css =>
    ⟨name, n % 2 ^ 32, some ((n + cs.length + (2 ^ 64 - 1)) % 2 ^ 64 % 2 ^ 32)⟩ :: metasOf (n + cs.length) files css
  | _, _, _ => []

theorem metasOf_concat {done : List (String × FileContent)} (name : String) (content : FileContent) (cs : List Chunk) :
    ∀ {css : List (List Chunk)} {n : ℕ}, css.length = done.length →
      metasOf n (done ++ [(name, content)]) (css ++ [cs]) = metasOf n done css ++
        [⟨name, (n + css.flatten.length) % 2 ^ 32,
          some ((n + (css ++ [cs]).flatten.length + (2 ^ 64 - 1)) % 2 ^ 64 % 2 ^ 32)⟩] := by
  induction done with
  | nil =>
    intro css n h
    obtain rfl := List.length_eq_zero_iff.1 h
    simp [metasOf]
  | cons file done ih =>
    intro css n h
    cases css with
    | nil => simp at h
    | cons cs' css =>
      rw [List.cons_append, List.cons_append, metasOf, ih (by simpa using h), metasOf]
      simp [Nat.add_assoc]

/-- **The records at any time**: those of the files added, and that of the file being added. -/
structure MetasOK (k₀ : κ) (files : List (String × FileContent)) (r : PipelineRun κ ι φ)
    (done : List (String × FileContent)) (css : List (List Chunk)) : Prop where
  drained : ∃ k, DrainsFiles (done.map Prod.snd) k₀ css k
  metas : r.fileMetas = metasOf 0 done css
  idle : r.current = none → files = done ++ r.files
  adding : ∀ m, r.current = some m →
    ∃ name content, files = done ++ (name, content) :: r.files ∧ m = ⟨name, css.flatten.length % 2 ^ 32, none⟩

/-- **A step** of a worker or of `main`. -/
theorem step_metas (hm₀ : m₀.writer.processedChunk = 0) {r r' : PipelineRun κ ι φ} {a : Actor}
    (h : RunOK feature k₀ m₀ files r) {done : List (String × FileContent)} {css : List (List Chunk)}
    (hmetas : MetasOK k₀ files r done css) (hs : PipelineRun.step feature a r = some r') :
    ∃ done' css', MetasOK k₀ files r' done' css' := by
  have h' := step_ok hm₀ h hs
  obtain ⟨k₁, hdrained⟩ := hmetas.drained
  cases a with
  | worker w =>
    obtain ⟨pipe, -, rfl⟩ := Option.map_eq_some_iff.1 hs
    exact ⟨done, css, hmetas.drained, hmetas.metas, hmetas.idle, hmetas.adding⟩
  | main =>
    cases h with
    | @idle done₁ css₁ hcur hfiles hadded hall hq =>
      obtain rfl := List.append_cancel_right ((hmetas.idle hcur).symm.trans hfiles)
      obtain ⟨rfl, -⟩ := hdrained.unique hadded.drained
      simp only [PipelineRun.step, hcur] at hs
      cases hr : r.files with
      | nil => rw [hr] at hs; simp at hs
      | cons file rest =>
        obtain ⟨name, content⟩ := file
        rw [hr] at hs hfiles
        rw [← Option.some.inj hs]
        refine ⟨done, css, hmetas.drained, hmetas.metas, fun hnone => (by cases hnone), fun m hm => ?_⟩
        refine ⟨name, content, hfiles, ?_⟩
        rw [← Option.some.inj hm, ← Nat.zero_add css.flatten.length, ← hm₀, ← (processChunks_ok hadded.processed).1]
        rfl
    | @adding done₁ css₁ k name content l ins outs hfiles hadded hl hcur hi =>
      simp only [PipelineRun.step, hcur] at hs
      split at hs
      · obtain ⟨name', content', hfiles', hm⟩ := hmetas.adding _ hcur
        -- the file that was added is the one of the record
        have hlen := congrArg List.length (hfiles.symm.trans hfiles')
        obtain ⟨rfl, hfile⟩ := List.append_inj (hfiles.symm.trans hfiles') (by
          rw [List.length_append, List.length_append] at hlen
          exact Nat.add_right_cancel hlen)
        obtain ⟨rfl, rfl⟩ := Prod.mk.inj (List.cons.inj hfile).1
        rw [← Option.some.inj hs] at h' ⊢
        cases h' with
        | adding _ _ _ hcur' _ => cases hcur'
        | @idle done₂ css₂ _ hfiles₂ hadded₂ _ _ =>
          have hdone : done₂ = done₁ ++ [(name, content)] := by
            refine List.append_cancel_right (hfiles₂.symm.trans (hfiles.trans ?_))
            simp [PipelineRun.join]
          subst hdone
          have hdrained₂ := hadded₂.drained
          rw [List.map_append] at hdrained₂
          obtain ⟨css₃, css₄, k₂, rfl, hd₃, hd₄⟩ := hdrained₂.split
          obtain ⟨rfl, -⟩ := hdrained.unique hd₃
          obtain ⟨cs, fuel, rfl, -⟩ := hd₄.one
          refine ⟨_, _, ⟨_, hadded₂.drained⟩, ?_, fun _ => hfiles₂, fun m hm => by cases hm⟩
          have hlen₁ : css.length = done₁.length := by
            have := hdrained.length_eq
            rwa [List.length_map] at this
          rw [metasOf_concat name content cs hlen₁, Nat.zero_add, Nat.zero_add, ← hmetas.metas]
          have hcount : r.processedChunk = (css ++ [cs]).flatten.length := by
            have := (processChunks_ok hadded₂.processed).1
            rwa [hm₀, Nat.zero_add] at this
          have hstart := congrArg FileMeta.startChunkId hm
          dsimp only at hstart
          rw [PipelineRun.join, hcount, hstart]
      · simp at hs

/-- **The records when all files have been added.** -/
theorem fileMetas_exec (hk₀ : Chunker.nextChunkId k₀ = 0) {index : ι} {cacheSize : ℕ} {k : κ} {css : List (List Chunk)}
    (hd : DrainsFiles (files.map Prod.snd) k₀ css k) {schedule : List Actor} {r : PipelineRun κ ι φ}
    (hr : PipelineRun.exec feature schedule (.new k₀ index cacheSize files) = some r) (hcur : r.current = none)
    (hfiles : r.files = []) : r.fileMetas = metasOf 0 files css := by
  let I (r : PipelineRun κ ι φ) : Prop := RunOK feature k₀ ⟨{}, index, { storage := .new cacheSize }⟩ files r ∧
    ∃ done css, MetasOK k₀ files r done css
  have hstep : ∀ a r r', I r → PipelineRun.step feature a r = some r' → I r' := by
    rintro a r r' ⟨hok, done, css, hmetas⟩ hs
    exact ⟨step_ok rfl hok hs, step_metas rfl hok hmetas hs⟩
  have hnew : I (.new k₀ index cacheSize files) :=
    ⟨runOK_new feature hk₀ index cacheSize files, [], [], ⟨k₀, .nil k₀⟩, rfl, fun _ => rfl, by simp [PipelineRun.new]⟩
  obtain ⟨-, done, css', h⟩ := Scheduled.exec_inv hstep schedule hnew hr
  have hdone := h.idle hcur
  rw [hfiles, List.append_nil] at hdone
  subst hdone
  obtain ⟨k', hd'⟩ := h.drained
  obtain ⟨rfl, -⟩ := hd'.unique hd
  exact h.metas

end Metas

theorem closedRanges_cons (name : String) (start stop : ℕ) (ms : List FileMeta) :
    closedRanges (⟨name, start, some stop⟩ :: ms) =
      (name, start, (stop + 1 + (2 ^ 32 - start)) % 2 ^ 32) :: closedRanges ms := rfl

/-- **From start to end** are the ranges of the files, as long as no id wraps. -/
theorem closedRanges_metasOf (f : Chunk → List UInt8) : ∀ {files : List (String × FileContent)}
    {css : List (List Chunk)} {n : ℕ}, n + css.flatten.length < 2 ^ 32 →
      closedRanges (metasOf n files css) = rangesOf n ((files.zip css).map fun x => (x.1.1, x.2.map f)) := by
  intro files
  induction files with
  | nil => intros; rfl
  | cons file files ih =>
    intro css n hlt
    obtain ⟨name, content⟩ := file
    cases css with
    | nil => rfl
    | cons cs css =>
      rw [List.flatten_cons, List.length_append] at hlt
      have hstart : n % 2 ^ 32 = n := Nat.mod_eq_of_lt (by omega)
      have hlen : ((n + cs.length + (2 ^ 64 - 1)) % 2 ^ 64 % 2 ^ 32 + 1 + (2 ^ 32 - n)) % 2 ^ 32 = cs.length := by
        omega
      rw [metasOf, closedRanges_cons, hstart, hlen, ih (by omega), List.zip_cons_cons, List.map_cons, rangesOf,
        List.length_map]

/-! ## What a record leads to -/

/-- What comes back for chunk `c` when the contents are `cs`: a duplicate comes from where record 0 or 1 leads. -/
def readBack (cs : List (List UInt8)) (c : Chunk) : List UInt8 :=
  if cs.idxOf c.buf < c.id then (cs.eraseDups.flatten.drop (lookedUp cs (cs.idxOf c.buf))).take c.len else c.buf

/-- Where a duplicate leads, its bytes or others follow, as many as it has. -/
theorem lookedUp_add_le {cs : List (List UInt8)} {b : List UInt8} (h : b ∈ cs) :
    lookedUp cs (cs.idxOf b) + b.length ≤ cs.eraseDups.flatten.length := by
  obtain ⟨after, hsplit⟩ := flatten_split h
  have hbefore : lookedUp cs (cs.idxOf b) ≤ (cs.take (cs.idxOf b)).eraseDups.flatten.length := by
    unfold lookedUp
    split
    · rename_i hbit
      -- the first content is among those before
      cases cs with
      | nil => exact Nat.zero_le _
      | cons x xs =>
        obtain ⟨n, hn⟩ := Nat.exists_eq_succ_of_ne_zero (show (x :: xs).idxOf b ≠ 0 by omega)
        rw [hn, List.take_succ_cons, List.eraseDups_cons, List.flatten_cons, List.length_append]
        exact Nat.le_add_right _ _
    · exact Nat.zero_le _
  have hlen := congrArg List.length hsplit
  rw [List.length_append, List.length_append] at hlen
  omega

theorem length_readBack {cs : List (List UInt8)} {c : Chunk} (h : c.buf ∈ cs) : (readBack cs c).length = c.len := by
  unfold readBack
  split
  · have := lookedUp_add_le h
    rw [List.length_take, List.length_drop]
    unfold Chunk.len at this ⊢
    omega
  · rfl

theorem readBack_eq_iff {cs : List (List UInt8)} {c : Chunk} :
    readBack cs c = c.buf ↔
      (cs.idxOf c.buf < c.id → c.buf <+: cs.eraseDups.flatten.drop (lookedUp cs (cs.idxOf c.buf))) := by
  unfold readBack
  split
  · rename_i hlt
    rw [List.prefix_iff_eq_take, eq_comm]
    exact ⟨fun h _ => h, fun h => h hlt⟩
  · rename_i hlt
    exact ⟨fun _ h => absurd h hlt, fun _ => rfl⟩

variable {ι φ : Type} [Index ι φ] [LawfulIndex ι φ]

/-- **What every record leads to.** -/
theorem Placed.reads {es : List (Chunk × ChunkMeta)} {m : Members ι} (h : Placed es m.writer.storage.dataFile.bytes)
    (hm : MembersOK φ es m) (hids : ∀ (k : ℕ) (c : Chunk) (r : ChunkMeta), es[k]? = some (c, r) → c.id = k)
    (hlen : ∀ e ∈ es, e.1.len ≤ 65535) (hdata : m.writer.storage.dataFile.bytes.length < 2 ^ 64) :
    Reads m.writer.storage (es.map fun e => readBack (contents es) e.1) := by
  intro k b hk
  rw [List.getElem?_map, Option.map_eq_some_iff] at hk
  obtain ⟨⟨c, r⟩, hk, rfl⟩ := hk
  have hmem := mem_contents hk
  have hsize : r.size.toNat = c.len :=
    (hm.writer.founded.describes k c r hk).size (hlen _ (List.mem_of_getElem? hk))
  have hbytes : recordBytes m.writer.storage r = readBack (contents es) c := by
    unfold recordBytes slice readBack
    rw [hsize, hids k c r hk]
    rw [h.data] at hdata
    rcases (idxOf_le_of_getElem? (getElem?_contents hk)).lt_or_eq with hlt | heq
    · have hoff := lookedUp_add_le hmem
      rw [if_pos hlt, ((h.placed k c r hk).again hlt).2, h.data,
        UInt64.toNat_ofNat_of_lt' (by unfold UInt64.size; omega)]
    · obtain ⟨after, hsplit⟩ := flatten_split hmem
      rw [heq] at hsplit
      have hoff := congrArg List.length hsplit
      rw [List.length_append] at hoff
      rw [if_neg (by omega), ((h.placed k c r hk).fresh heq).2, h.data,
        UInt64.toNat_ofNat_of_lt' (by unfold UInt64.size; omega), hsplit]
      exact slice_middle rfl rfl after
  rw [getChunkContent_eq hm.writer.records (by rw [List.getElem?_map, hk]; rfl), hbytes, hsize,
    if_pos (length_readBack hmem)]

/-- **What every record leads to**, when the chunks were processed one after the other. -/
theorem readBack_run (p : FeatureIndex ι φ) (cacheSize : ℕ) {chunks : List Chunk} [Inhabited φ]
    (hids : chunks.map Chunk.id = idsFrom 0 chunks.length) (hcount : chunks.length < 2 ^ 32)
    (hshort : ∀ c ∈ chunks, c.len ≤ 65535)
    (hsha : ∀ c ∈ chunks, ∀ c' ∈ chunks, Sha1.hash c.buf = Sha1.hash c'.buf → c.buf = c'.buf) {m : Members ι}
    (hp : processChunks p.feature chunks ⟨{}, p.index, { storage := .new cacheSize }⟩ = some m) :
    Reads m.writer.storage (chunks.map (readBack (chunks.map Chunk.buf))) := by
  obtain ⟨es, hes, hm, hplaced, -⟩ := placed_run p cacheSize chunks hids hcount.le hsha hp
  have hcontents : contents es = chunks.map Chunk.buf := by
    rw [← hes, List.map_map]
    rfl
  have hdata : m.writer.storage.dataFile.bytes.length < 2 ^ 64 := by
    have hle : (chunks.map Chunk.buf).flatten.length ≤ chunks.length * 65535 := by
      rw [List.length_flatten]
      refine (List.sum_le_card_nsmul _ 65535 ?_).trans (by rw [List.length_map, List.length_map, smul_eq_mul])
      rw [List.map_map]
      exact List.forall_mem_map.2 hshort
    have hsub := (eraseDups_sublist (chunks.map Chunk.buf)).flatten.length_le
    rw [hplaced.data, hcontents]
    omega
  have hpos : ∀ (k : ℕ) (c : Chunk) (r : ChunkMeta), es[k]? = some (c, r) → c.id = k := by
    intro k c r hk
    have hc : chunks[k]? = some c := by
      rw [← hes, List.getElem?_map, hk]
      rfl
    have hlt := (List.getElem?_eq_some_iff.1 hc).1
    rw [getElem?_id (by omega) hids hc, Nat.zero_add, Nat.mod_eq_of_lt (by omega)]
  have hreads := hplaced.reads hm hpos (fun e he => hshort e.1 (hes ▸ List.mem_map_of_mem he)) hdata
  rwa [hcontents, show es.map (fun e => readBack (chunks.map Chunk.buf) e.1) =
    (es.map Prod.fst).map (readBack (chunks.map Chunk.buf)) by rw [List.map_map]; rfl, hes] at hreads

/-! ## Any schedule -/

/-- Pieces of the same lengths, one behind the other. -/
theorem flatten_map_inj {α β : Type} {f g : α → List β} : ∀ {cs : List α}, (∀ c ∈ cs, (f c).length = (g c).length) →
    ((cs.map f).flatten = (cs.map g).flatten ↔ ∀ c ∈ cs, f c = g c) := by
  intro cs
  induction cs with
  | nil => simp
  | cons c cs ih =>
    intro hlen
    rw [List.forall_mem_cons] at hlen ⊢
    rw [List.map_cons, List.map_cons, List.flatten_cons, List.flatten_cons, ← ih hlen.2]
    exact ⟨fun h => List.append_inj h hlen.1, fun h => by rw [h.1, h.2]⟩

theorem length_flatten_map {α β : Type} {f g : α → List β} {cs : List α} (h : ∀ c ∈ cs, (f c).length = (g c).length) :
    (cs.map f).flatten.length = (cs.map g).flatten.length := by
  rw [List.length_flatten, List.length_flatten, List.map_map, List.map_map]
  exact congrArg List.sum (List.map_congr_left h)

variable [Inhabited φ]

/-- **What comes back from the pipeline.** With `FastCDC`, either feature and index and less than `2^32` chunks that
fit a record, without a collision: when all files have been added, under whatever schedule, reading from the start to
the end of each record gives names and lengths as they were added; and it gives the files themselves if and only if
each chunk that was there before is what follows where record 0 or 1 leads. -/
theorem pipeline_restores_iff (p : FeatureIndex ι φ) {min max : ℕ} (hmin : 1 ≤ min) (hmm : min ≤ max)
    (hmax : max < 2 ^ 31 - 1) (mask : UInt64) (cacheSize : ℕ) (files : List (String × FileContent)) :
    ∃ css k, drainFiles (files.map Prod.snd) (FastCDC.new min max mask) = some (css, k) ∧
      (css.flatten.length < 2 ^ 32 → (∀ c ∈ css.flatten, c.len ≤ 65535) →
        (∀ c ∈ css.flatten, ∀ c' ∈ css.flatten, Sha1.hash c.buf = Sha1.hash c'.buf → c.buf = c'.buf) →
        ∀ schedule (r : PipelineRun FastCDC ι φ),
          PipelineRun.exec p.feature schedule (.new (FastCDC.new min max mask) p.index cacheSize files) = some r →
          r.current = none → r.files = [] →
          ∃ back, (membersOf r.pipe.loc).writer.storage.getFiles (closedRanges r.fileMetas) = some back ∧
            back.map (fun f => (f.1, f.2.length)) = files.map (fun f => (f.1, (f.2.getD []).length)) ∧
            (back = files.map (fun f => (f.1, f.2.getD [])) ↔
              let cs := css.flatten.map Chunk.buf
              ∀ c ∈ css.flatten, cs.idxOf c.buf < c.id →
                c.buf <+: cs.eraseDups.flatten.drop (lookedUp cs (cs.idxOf c.buf)))) := by
  obtain ⟨css, k, hdrain, hok, hids⟩ := drainFiles_fast (hmin.trans hmm) hmm hmax (files.map Prod.snd) (.new min max mask)
    (FastOK.new min max mask) rfl
  have hd := drainsFiles_of_drainFiles _ hdrain
  have hlen : css.length = files.length := by
    rw [hd.length_eq, List.length_map]
  refine ⟨css, k, hdrain, fun hcount hshort hsha schedule r hr hcur hfiles => ?_⟩
  have hmetas := fileMetas_exec rfl hd hr hcur hfiles
  have hchunkids := (hd.ids (show Chunker.nextChunkId (FastCDC.new min max mask) = 0 from rfl)).1
  have hreads := readBack_run p cacheSize hchunkids hcount hshort hsha (PipelineRun.processed rfl hd hr hcur hfiles)
  set cs := css.flatten.map Chunk.buf with hcs
  have hzip : (files.zip css).flatMap Prod.snd = css.flatten := by
    rw [List.flatMap_def, List.map_snd_zip hlen.le]
  have hback := getFiles_of_reads hreads ((files.zip css).map fun x => (x.1.1, x.2.map (readBack cs))) (n := 0) ?_
    (Nat.zero_le _) (List.forall₂_same.2 fun _ _ => ⟨rfl, rfl, fun _ => rfl⟩)
  · rw [← closedRanges_metasOf (readBack cs) (by omega), ← hmetas, List.map_map] at hback
    have hfiles := files_of_fastFileOK hok
    rw [List.map_map] at hfiles
    have hlens : ∀ x ∈ files.zip css, ∀ c ∈ x.2, (readBack cs c).length = c.buf.length := by
      rw [← List.forall_mem_flatMap, hzip]
      exact fun c hc => length_readBack (List.mem_map_of_mem hc)
    refine ⟨_, hback, ?_, ?_⟩
    · rw [show files.map (fun f => (f.1, (f.2.getD []).length)) = (files.map fun f => (f.1, f.2.getD [])).map
        fun f => (f.1, f.2.length) by rw [List.map_map]; rfl, ← hfiles, List.map_map, List.map_map]
      exact List.map_congr_left fun x hx => Prod.ext rfl (length_flatten_map (hlens x hx))
    · dsimp only
      simp only [← readBack_eq_iff]
      rw [← hfiles, List.map_inj_left, ← hzip, List.forall_mem_flatMap]
      refine forall₂_congr fun x hx => ?_
      rw [← flatten_map_inj (hlens x hx)]
      exact Prod.ext_iff.trans (and_iff_right rfl)
  · rw [List.drop_zero, ← hzip, List.map_flatMap, List.flatMap_def, List.map_map]
    rfl

/-- Chunk 2 is as chunk 1 and comes back as chunk 0. -/
theorem pipeline_restores_three : ∃ (schedule : List Actor)
    (r : PipelineRun FastCDC BestFitIndex (Feature ℚ)) (back : List (String × List UInt8)),
    PipelineRun.exec OdessSubfeatures.call schedule
        (.new (FastCDC.new 1 1 0) (BestFitIndex.new (.byInsertion _) 12) 1 [("a", some [7, 8, 8])]) = some r ∧
      (membersOf r.pipe.loc).writer.storage.getFiles (closedRanges r.fileMetas) = some back ∧
      back.map (fun f => (f.1, f.2.length)) = [("a", 3)] ∧ back ≠ [("a", [7, 8, 8])] := by
  let schedule : List Actor :=
    .main :: ([(0, 8), (1, 11), (2, 11), (3, 11), (4, 7)].flatMap fun x => List.replicate x.2 (.worker x.1)) ++ [.main]
  have hrun : ((PipelineRun.exec (OdessSubfeatures.call : Chunk → Feature ℚ) schedule
      (.new (FastCDC.new 1 1 0) (BestFitIndex.new (.byInsertion _) 12) 1 [("a", some [7, 8, 8])])).map
        fun r => (r.current, r.files)) = some (none, []) := by decide +kernel
  obtain ⟨r, hr, he⟩ := Option.map_eq_some_iff.1 hrun
  obtain ⟨hcur, hfiles⟩ := Prod.mk.inj he
  have hcss : (drainFiles [some [7, 8, 8]] (FastCDC.new 1 1 0)).map Prod.fst =
      some [[⟨[7], 0⟩, ⟨[8], 1⟩, ⟨[8], 2⟩]] := by decide +kernel
  obtain ⟨css, k, hd, h⟩ := pipeline_restores_iff (FeatureIndex.bestfit (ρ := ℚ) (.byInsertion _)) le_rfl le_rfl
    (by decide : 1 < 2 ^ 31 - 1) 0 1 [("a", some [7, 8, 8])]
  rw [show drainFiles [some [7, 8, 8]] (FastCDC.new 1 1 0) = some (css, k) from hd] at hcss
  obtain rfl : css = [[⟨[7], 0⟩, ⟨[8], 1⟩, ⟨[8], 2⟩]] := Option.some.inj hcss
  obtain ⟨back, hback, hlens, hiff⟩ := h (by decide) (by decide) (by decide +kernel) schedule r hr hcur hfiles
  exact ⟨schedule, r, back, hr, hback, hlens, fun heq => absurd (hiff.1 heq ⟨[8], 2⟩ (by simp)) (by decide)⟩

end ChunkGrouping
