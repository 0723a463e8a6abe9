import ChunkGrouping.Lib.DList
import ChunkGrouping.Model.Chunk

/-!
# `ChunkCache` (`storage/cache.h`, `storage/cache.cpp`)

The cache keeps its nodes in a doubly linked list between two sentinels, most
recently used first, and finds them by chunk id through `map_`. Memory is a heap of
nodes; `new` takes the next address never used before. Following a null or dangling
pointer is `none`. `size_t` arithmetic is modulo `2^64`.
-/

namespace ChunkGrouping

open DList

/-- What a `Node` holds besides its links. The sentinels hold no chunk. -/
structure CacheEntry where
  chunkId : ℕ
  chunk : Option Chunk
deriving DecidableEq, Repr

/-- The state of a `ChunkCache`. -/
structure ChunkCache where
  maxMemoryUsage : ℕ
  currentMemory : ℕ
  heap : Heap CacheEntry
  map : ℕ → Option ℕ
  dummyHead : ℕ
  dummyTail : ℕ
  /-- the address the next `new` returns -/
  fresh : ℕ
  cacheHits : UInt32
  cacheMiss : UInt32

namespace ChunkCache

/-- `ChunkCache(cache_size)`. Address 0 is the null pointer. -/
def new (cacheSize : ℕ) : ChunkCache where
  maxMemoryUsage := cacheSize * 1024 * 1024 % 2 ^ 64
  currentMemory := 0
  heap := fun p =>
    if p = 1 then some ⟨0, 2, ⟨0, none⟩⟩ else if p = 2 then some ⟨1, 0, ⟨0, none⟩⟩ else none
  map := fun _ => none
  dummyHead := 1
  dummyTail := 2
  fresh := 3
  cacheHits := 0
  cacheMiss := 0

/-- `insertToHead`. -/
def insertToHead (node : ℕ) (c : ChunkCache) : Option ChunkCache := do
  let heap ← insertAfter c.dummyHead node c.heap
  some { c with heap }

/-- `get`. -/
def get (chunkId : ℕ) (c : ChunkCache) : Option (Option Chunk × ChunkCache) :=
  match c.map chunkId with
  | none => some (none, { c with cacheMiss := c.cacheMiss + 1 })
  | some node => do
    let n ← c.heap node
    let heap ← unlink n.prev n.next c.heap
    let c ← insertToHead node { c with heap, cacheHits := c.cacheHits + 1 }
    let e ← valAt c.heap node
    some (e.chunk, c)

/-- `while (current_memory + chunk->len() >= max_memory_usage)`. A round frees a node or follows a
null pointer, so there are no more rounds than addresses in use. -/
def evictLoop (len : ℕ) : ℕ → ChunkCache → Option ChunkCache
  | 0, _ => none
  | fuel + 1, c =>
    if c.maxMemoryUsage ≤ (c.currentMemory + len) % 2 ^ 64 then do
      let tail ← c.heap c.dummyTail
      let evict := tail.prev
      let e ← c.heap evict
      let heap ← unlink e.prev c.dummyTail c.heap
      evictLoop len fuel { c with
        heap := Function.update heap evict none
        map := Function.update c.map e.val.chunkId none
        -- the length subtracted is the new chunk's, not the evicted one's
        currentMemory := (c.currentMemory + 2 ^ 64 - len) % 2 ^ 64 }
    else some c

/-- `add`. -/
def add (chunkId : ℕ) (chunk : Chunk) (c : ChunkCache) : Option ChunkCache := do
  let c ← evictLoop chunk.len c.fresh c
  let node := c.fresh
  insertToHead node { c with
    currentMemory := (c.currentMemory + chunk.len) % 2 ^ 64
    heap := Function.update c.heap node (some ⟨0, 0, ⟨chunkId, some chunk⟩⟩)
    map := Function.update c.map chunkId (some node)
    fresh := node + 1 }

end ChunkCache

end ChunkGrouping
