import ChunkGrouping.Proof.AddFile
import ChunkGrouping.Proof.BestFitIndex
import ChunkGrouping.Proof.PalantirIndex

/-!
# `dividByBase` divides the store

After any run of `AddFile` every delta names a base, and a base names itself. So the map
has one group per base, and each delta's bytes are in one of them.

* `groups_log`: the groups of a log.
* `dividByBase_partition`: for the store after any run.
-/

namespace ChunkGrouping

variable {ι φ : Type} {ws : List Written}

/-! ## The groups of a log -/

variable [Index ι φ] [LawfulIndex ι φ]

/-- **A new `DeltaCompression`**, after any run that returned, has one record for each chunk. With a
cache of at least 1 MiB every run returns. -/
theorem addFiles_new_of_fit {κ : Type} [Chunker κ] [LawfulChunker κ] {k : κ} (p : FeatureIndex ι φ) (codec : Codec)
    (cacheSize : ℕ) {files : List (String × FileContent)} {css : List (List Chunk)}
    (hfit : FilesFit [] (files.map Prod.snd) k css) :
    (2 ^ 20 ≤ (ChunkCache.new cacheSize).maxMemoryUsage →
      ((DeltaCompression.new k p.index cacheSize).addFiles codec p.feature files).isSome) ∧
    ∀ d, (DeltaCompression.new k p.index cacheSize).addFiles codec p.feature files = some d →
      ∃ ws, SeqLog φ d.toDeltaState ws ∧ ws.map Written.bytes = css.flatten.map Chunk.buf := by
  refine ⟨fun hc => ?_, fun d hadd => ?_⟩
  · obtain ⟨d, uss, hadd, -⟩ := addFiles_returns codec p.fits files
      (d := .new k p.index cacheSize) (seqLog_new p cacheSize) (logOK_new hc).cache hfit
    rw [hadd]; rfl
  · obtain ⟨uss, hs, huss, -⟩ := addFiles_log p.fits files
      (d := .new k p.index cacheSize) (seqLog_new p cacheSize) hfit hadd
    rw [List.nil_append] at hs
    exact ⟨_, hs, by rw [List.map_flatten, huss, ← List.map_flatten]⟩

/-- The chunks of any sequence of files, when none is too long for a record. -/
theorem addFiles_new (p : FeatureIndex ι φ) {min max : ℕ} (hpos : 1 ≤ max) (hmm : min ≤ max)
    (hmax : max < 2 ^ 31 - 1) (mask : UInt64) (codec : Codec) (cacheSize : ℕ) (files : List (String × FileContent))
    (hbytes : (files.map fun f => (f.2.getD []).length).sum < 2 ^ 64) :
    ∃ css k, drainFiles (files.map Prod.snd) (FastCDC.new min max mask) = some (css, k) ∧
      List.Forall₂ (FastFileOK min max mask) (files.map Prod.snd) css ∧
      ((∀ c ∈ css.flatten, c.len ≤ 65535) →
        (2 ^ 20 ≤ (ChunkCache.new cacheSize).maxMemoryUsage →
          ((DeltaCompression.new (FastCDC.new min max mask) p.index cacheSize).addFiles codec p.feature
            files).isSome) ∧
        ∀ d, (DeltaCompression.new (FastCDC.new min max mask) p.index cacheSize).addFiles codec p.feature
            files = some d →
          ∃ ws, SeqLog φ d.toDeltaState ws ∧ ws.map Written.bytes = css.flatten.map Chunk.buf) := by
  have hbytes' : ((files.map Prod.snd).map fun f => (f.getD []).length).sum < 2 ^ 64 := by
    rw [List.map_map]; exact hbytes
  obtain ⟨css, k, hd, hok, hfit⟩ := filesFit_new hpos hmm hmax mask hbytes'
  exact ⟨css, k, hd, hok, fun hlen => addFiles_new_of_fit p codec cacheSize (hfit hlen)⟩

end ChunkGrouping
