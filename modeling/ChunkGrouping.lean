import ChunkGrouping.Proof.FastCDC
import ChunkGrouping.Proof.RabinCDC
import ChunkGrouping.Model.Storage
import ChunkGrouping.Proof.CacheMemory
import ChunkGrouping.Proof.Classify
import ChunkGrouping.Proof.Layout
import ChunkGrouping.Proof.Readback
import ChunkGrouping.Proof.Dissimilar
import ChunkGrouping.Proof.Duplicate
import ChunkGrouping.Proof.FeaturePairs
import ChunkGrouping.Proof.FileMetaText
import ChunkGrouping.Proof.FileRange
import ChunkGrouping.Proof.GroupedIds
import ChunkGrouping.Proof.IndexFile
import ChunkGrouping.Proof.StoredSize
import ChunkGrouping.Proof.Totals
import ChunkGrouping.Proof.Pipeline
import ChunkGrouping.Proof.PipelineRefs
import ChunkGrouping.Proof.PipelineLocks
import ChunkGrouping.Proof.GroupSize
import ChunkGrouping.Proof.EqualFeatures
import ChunkGrouping.Proof.BestMatch
import ChunkGrouping.Proof.IndexTruncated
import ChunkGrouping.Proof.SampledMinima
import ChunkGrouping.Proof.GroupHash
import ChunkGrouping.Proof.RabinHistory
import ChunkGrouping.Proof.GearWindow
import ChunkGrouping.Proof.FastAppend
import ChunkGrouping.Proof.RabinReinit
import ChunkGrouping.Proof.Ungrouped
import ChunkGrouping.Proof.PipelineRestore
import ChunkGrouping.Proof.Sha1
import ChunkGrouping.Proof.FastResync
import ChunkGrouping.Proof.FinesseHash
import ChunkGrouping.Proof.ModesStore
import ChunkGrouping.Proof.PipelineEdit
import ChunkGrouping.Proof.PipelineRealise
import ChunkGrouping.Proof.RabinPipeline
import ChunkGrouping.Proof.RabinResync
import ChunkGrouping.Proof.Resemble
