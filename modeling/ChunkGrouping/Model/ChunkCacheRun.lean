import ChunkGrouping.Lib.Recency
import ChunkGrouping.Model.ChunkCache

/-!
# Runs of a `ChunkCache`

`GetDeltaEncodedChunk` looks a chunk up and adds it when it was not found. `CacheRun`
is a run of such calls with what happened in it: the lookups and what they returned,
the chunks added, and the entries the eviction loop took out (`evictions`).
-/

namespace ChunkGrouping

open DList Recency

namespace ChunkCache

/-- One round of the eviction loop: the node it frees, the id it erases, and the cache after. -/
def evictOne (len : ℕ) (c : ChunkCache) : Option (ℕ × ℕ × ChunkCache) := do
  let tail ← c.heap c.dummyTail
  let evict := tail.prev
  let e ← c.heap evict
  let heap ← unlink e.prev c.dummyTail c.heap
  some (evict, e.val.chunkId, { c with
    heap := Function.update heap evict none
    map := Function.update c.map e.val.chunkId none
    currentMemory := (c.currentMemory + 2 ^ 64 - len) % 2 ^ 64 })

/-- The loop is these rounds. -/
theorem evictLoop_succ (len fuel : ℕ) (c : ChunkCache) :
    evictLoop len (fuel + 1) c = if c.maxMemoryUsage ≤ (c.currentMemory + len) % 2 ^ 64 then
      (c.evictOne len).bind fun r => evictLoop len fuel r.2.2 else some c := by
  rw [evictLoop]
  refine if_congr Iff.rfl ?_ rfl
  unfold evictOne
  cases c.heap c.dummyTail with
  | none => rfl
  | some tail =>
    simp only [Option.bind_eq_bind, Option.bind_some]
    cases c.heap tail.prev with
    | none => rfl
    | some e =>
      simp only [Option.bind_some]
      cases unlink e.prev c.dummyTail c.heap <;> rfl

/-- The nodes the eviction loop frees, in order, with the ids it erases. -/
def evictions (len : ℕ) : ℕ → ChunkCache → List (ℕ × ℕ)
  | 0, _ => []
  | fuel + 1, c =>
    if c.maxMemoryUsage ≤ (c.currentMemory + len) % 2 ^ 64 then
      match c.evictOne len with
      | some (node, id, c) => (node, id) :: evictions len fuel c
      | none => []
    else []

end ChunkCache

/-- The events of a call of `add`, newest first. -/
def addEvents (id : ℕ) (chunk : Chunk) (c : ChunkCache) : List (Event ℕ Chunk) :=
  .added id chunk :: (c.evictions chunk.len c.fresh).reverse.map fun e => .evicted e.2

/-- **A run** from `c₀`, its events newest first. A chunk is added right after a lookup missed it,
and only where `ok` allows it. -/
inductive CacheRun (ok : ChunkCache → Chunk → Prop) (c₀ : ChunkCache) : List (Event ℕ Chunk) → ChunkCache → Prop
  | new : CacheRun ok c₀ [] c₀
  | get {h c id res c'} : CacheRun ok c₀ h c → c.get id = some (res, c') → CacheRun ok c₀ (.got id res :: h) c'
  | add {h c id chunk c'} : CacheRun ok c₀ (.got id none :: h) c → ok c chunk → c.add id chunk = some c' →
      CacheRun ok c₀ (addEvents id chunk c ++ .got id none :: h) c'

/-- The entries from the node at `p` to `dummy_tail`. -/
def ChunkCache.walk (c : ChunkCache) : ℕ → ℕ → List CacheEntry
  | 0, _ => []
  | fuel + 1, p =>
    if p = c.dummyTail then []
    else match c.heap p with
      | some n => n.val :: c.walk fuel n.next
      | none => []

/-- The chunks in the cache, most recently used first. -/
def ChunkCache.chunks (c : ChunkCache) : List Chunk :=
  match c.heap c.dummyHead with
  | some n => (c.walk c.fresh n.next).filterMap CacheEntry.chunk
  | none => []

/-- Their bytes. -/
def ChunkCache.memoryUsed (c : ChunkCache) : ℕ := (c.chunks.map Chunk.len).sum

/-- The chunk is shorter than the cache is large. -/
def FitsCache (c : ChunkCache) (chunk : Chunk) : Prop := chunk.len < c.maxMemoryUsage

end ChunkGrouping
