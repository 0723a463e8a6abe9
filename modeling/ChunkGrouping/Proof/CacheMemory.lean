import ChunkGrouping.Proof.CacheHistory

/-!
# The memory of `ChunkCache`

The eviction loop subtracts the length of the chunk to be added, not that of the chunk
evicted. So the counter is the memory used only while the two are the same.

* `chunks_eq`: the chunks in the cache are those of its entries.
* `add_memory_iff`: an insertion keeps the counter right exactly when it is balanced.
* `memory_kept_iff`: the counter stays right, and below the limit, exactly when every
  chunk that evicts another has its length.
-/

namespace ChunkGrouping

open DList Recency

variable {c : ChunkCache} {h : List (Event ℕ Chunk)} {es : List Slot}

/-! ## What is in the cache -/

theorem walk_eq : ∀ (es : List Slot) (p fuel : ℕ), Linked c.heap (p :: (es.map Slot.ptr ++ [c.dummyTail])) →
    (p :: (es.map Slot.ptr ++ [c.dummyTail])).Nodup →
    (∀ e ∈ es, valAt c.heap e.ptr = some ⟨e.id, some e.chunk⟩) → es.length < fuel →
    ∃ n, c.heap p = some n ∧ c.walk fuel n.next = es.map fun e => ⟨e.id, some e.chunk⟩ := by
  intro es
  induction es with
  | nil =>
    intro p fuel hl _ _ hf
    obtain ⟨n, hn, hnext⟩ := (List.isChain_cons_cons.1 hl).1.left
    obtain ⟨k, rfl⟩ : ∃ k, fuel = k + 1 := ⟨fuel - 1, by omega⟩
    refine ⟨n, hn, ?_⟩
    rw [ChunkCache.walk, if_pos hnext]
    rfl
  | cons e es ih =>
    intro p fuel hl hnd hv hf
    obtain ⟨hpe, hl'⟩ := List.isChain_cons_cons.1 hl
    obtain ⟨n, hn, hnext⟩ := hpe.left
    obtain ⟨k, rfl⟩ : ∃ k, fuel = k + 1 := ⟨fuel - 1, by simp at hf; omega⟩
    have hnd' := (List.nodup_cons.1 hnd).2
    obtain ⟨m, hm, hwalk⟩ := ih e.ptr k hl' hnd' (fun x hx => hv x (List.mem_cons_of_mem _ hx))
      (by simpa using hf)
    have hval : m.val = ⟨e.id, some e.chunk⟩ := by
      have := hv e List.mem_cons_self
      simpa [valAt, hm] using this
    -- the walk does not stop before `dummy_tail`
    have htail : e.ptr ≠ c.dummyTail := by
      intro he
      refine (List.nodup_cons.1 hnd').1 ?_
      rw [he]
      exact List.mem_append_right _ (List.mem_singleton_self _)
    refine ⟨n, hn, ?_⟩
    rw [ChunkCache.walk, hnext, if_neg htail, hm]
    simp only
    rw [hwalk, hval, List.map_cons]

/-- There are fewer entries than addresses in use. -/
theorem CacheOK.length_lt (hc : CacheOK c es) : es.length < c.fresh := by
  have hsub : (ring c es).toFinset ⊆ Finset.range c.fresh := by
    intro p hp
    have hsome := hc.mem_ring (List.mem_toFinset.1 hp)
    rw [Finset.mem_range]
    by_contra hlt
    rw [hc.fresh p (Nat.not_lt.1 hlt)] at hsome
    exact absurd hsome (by simp)
  have hcard := Finset.card_le_card hsub
  rw [List.toFinset_card_of_nodup hc.nodup, Finset.card_range] at hcard
  simp only [ring, List.length_cons, List.length_append, List.length_map, List.length_nil] at hcard
  omega

/-- **The chunks in the cache** are those of its entries. -/
theorem chunks_eq (hc : CacheOK c es) : c.chunks = es.map Slot.chunk := by
  obtain ⟨n, hn, hwalk⟩ := walk_eq es c.dummyHead c.fresh hc.linked hc.nodup hc.nodes hc.length_lt
  unfold ChunkCache.chunks
  rw [hn]
  simp only
  rw [hwalk, List.filterMap_map, ← List.filterMap_eq_map]
  rfl

/-- Their bytes are those of its entries. -/
theorem memoryUsed_slots (hc : CacheOK c es) : c.memoryUsed = (es.map fun e => e.chunk.len).sum := by
  unfold ChunkCache.memoryUsed
  rw [chunks_eq hc, List.map_map]
  rfl

/-! ## The counter -/

/-- **The counter is the memory used**, which is below the limit. -/
structure MemoryOK (c : ChunkCache) : Prop where
  counter : c.currentMemory = c.memoryUsed
  limit : c.memoryUsed < c.maxMemoryUsage

/-- The chunk fits beside those in the cache, or it is as long as the one it evicts. -/
def Balanced (c : ChunkCache) (chunk : Chunk) : Prop :=
  c.memoryUsed + chunk.len < c.maxMemoryUsage ∨
    (c.memoryUsed + chunk.len < 2 ^ 64 ∧ c.chunks.getLast?.map Chunk.len = some chunk.len)

/-- Balanced, over the entries. -/
theorem balanced_iff (hc : CacheOK c es) (chunk : Chunk) :
    Balanced c chunk ↔ (es.map fun e => e.chunk.len).sum + chunk.len < c.maxMemoryUsage ∨
      ((es.map fun e => e.chunk.len).sum + chunk.len < 2 ^ 64 ∧
        es.getLast?.map (fun e => e.chunk.len) = some chunk.len) := by
  unfold Balanced
  rw [memoryUsed_slots hc, chunks_eq hc, List.getLast?_map, Option.map_map]
  rfl

/-- **An insertion keeps the counter right exactly when it is balanced.** -/
theorem add_memory_iff (hc : CacheOK c es) (hm : MemoryOK c) {id : ℕ} {chunk : Chunk}
    (hid : ∀ e ∈ es, e.id ≠ id) (hlen : FitsCache c chunk) :
    ∃ c', c.add id chunk = some c' ∧ (MemoryOK c' ↔ Balanced c chunk) := by
  obtain ⟨c', hadd, hmax, hc'⟩ := add_ok hc hid hlen
  refine ⟨c', hadd, ?_⟩
  have hcount := add_memory hc hlen hadd
  have hused' : c'.memoryUsed = chunk.len + ((evicted c chunk.len es).map fun e => e.chunk.len).sum := by
    rw [memoryUsed_slots hc', List.map_cons, List.sum_cons]
  have hused := memoryUsed_slots hc
  have hcounter := hm.counter
  have hlimit := hm.limit
  have hmax64 := hc.max_lt
  unfold FitsCache at hlen
  have hiff : MemoryOK c' ↔ c'.currentMemory = c'.memoryUsed ∧ c'.memoryUsed < c.maxMemoryUsage :=
    ⟨fun hok => ⟨hok.counter, hmax ▸ hok.limit⟩, fun hok => ⟨hok.1, hmax ▸ hok.2⟩⟩
  rw [hiff, hcount, hused', balanced_iff hc, ← hused]
  unfold evicted
  rw [hcounter]
  split
  · next hfull =>
    -- the counter goes down by the length of the new chunk, the entries by that of the last one
    rw [← hcounter] at hfull
    obtain ⟨xs, e, rfl⟩ := (List.eq_nil_or_concat' es).resolve_left (hc.ne_nil hlen hfull)
    rw [List.dropLast_concat, List.getLast?_concat, Option.map_some, Option.some.injEq]
    rw [List.map_append, List.sum_append, List.map_singleton, List.sum_singleton] at hused
    omega
  · next hroom =>
    -- nothing is evicted: what counts is that the sum does not wrap
    rw [← hused]
    constructor
    · omega
    · intro hb
      omega

/-- The memory used, by the history. -/
theorem memoryUsed_eq (hok : HistoryOK c h es) :
    c.memoryUsed = ((contents h).map fun e => e.2.len).sum := by
  unfold ChunkCache.memoryUsed
  rw [chunks_eq hok.cache, ← hok.contents, List.map_map, List.map_map]
  rfl

/-- **Every run of balanced insertions.** -/
theorem run_memory {c₀ : ChunkCache} (h₀ : CacheOK c₀ []) (hm₀ : MemoryOK c₀)
    (hrun : CacheRun (fun c chunk => FitsCache c chunk ∧ Balanced c chunk) c₀ h c) : MemoryOK c := by
  induction hrun with
  | new => exact hm₀
  | @get h c id res c' hrun hg ih =>
    obtain ⟨es, hok, -⟩ := run_history (fun _ _ hb => hb.1) h₀ hrun
    obtain ⟨c'', es', hg', hok', hmax⟩ := get_history hok id
    rw [hg] at hg'
    obtain ⟨rfl, rfl⟩ := Prod.mk.inj (Option.some.inj hg')
    have hused := memoryUsed_eq hok'
    have hperm := (perm_contents_got (h := h) id (held id h)).map fun e => e.2.len
    rw [hperm.sum_eq, ← memoryUsed_eq hok] at hused
    exact ⟨by rw [get_memory hg, ih.counter, hused], by rw [hused, hmax]; exact ih.limit⟩
  | add hrun hallow hadd ih =>
    obtain ⟨es, hok, -⟩ := run_history (fun _ _ hb => hb.1) h₀ hrun
    obtain ⟨c', hadd', hiff⟩ := add_memory_iff hok.cache ih (hok.ne_of_held hok.lru.1.symm) hallow.1
    rw [hadd] at hadd'
    obtain rfl := Option.some.inj hadd'
    exact hiff.2 hallow.2

theorem memoryOK_new {cacheSize : ℕ} (hmax : 0 < (ChunkCache.new cacheSize).maxMemoryUsage) :
    MemoryOK (.new cacheSize) := by
  have hused : (ChunkCache.new cacheSize).memoryUsed = 0 := by
    unfold ChunkCache.memoryUsed
    rw [chunks_eq (cacheOK_new hmax)]
    rfl
  exact ⟨hused.symm, hused ▸ hmax⟩

/-- **The memory limit is kept exactly while insertions are balanced**: after every run of balanced
insertions the counter is the memory used and is below the limit, and the next insertion keeps
that exactly when it is balanced, too. -/
theorem memory_kept_iff {cacheSize : ℕ} (hmax : 2 ^ 20 ≤ (ChunkCache.new cacheSize).maxMemoryUsage)
    (hrun : CacheRun (fun c chunk => FitsCache c chunk ∧ Balanced c chunk) (.new cacheSize) h c) :
    MemoryOK c ∧ ∀ id h', h = .got id none :: h' → ∀ chunk, FitsCache c chunk →
      ∃ c', c.add id chunk = some c' ∧ (MemoryOK c' ↔ Balanced c chunk) := by
  have h₀ : CacheOK (.new cacheSize) [] := cacheOK_new (by omega)
  have hm := run_memory h₀ (memoryOK_new (by omega)) hrun
  refine ⟨hm, ?_⟩
  rintro id h' rfl chunk hlen
  obtain ⟨es, hok, -⟩ := run_history (fun _ _ hb => hb.1) h₀ hrun
  exact add_memory_iff hok.cache hm (hok.ne_of_held hok.lru.1.symm) hlen

/-- Chunks of 524288, 524287 and 524288 bytes in a cache of 1 MiB: the third evicts the first, which is
as long. -/
theorem fetch_balanced {a b d : Chunk} (ha : a.len = 524288) (hb : b.len = 524287) (hd : d.len = 524288) :
    ∃ c p q, CacheRun (fun c chunk => FitsCache c chunk ∧ Balanced c chunk) (.new 1) [.added 2 d, .evicted 0,
        .got 2 none, .added 1 b, .got 1 none, .added 0 a, .got 0 none] c ∧
      CacheOK c [⟨p, 2, d⟩, ⟨q, 1, b⟩] ∧ c.maxMemoryUsage = 1048576 := by
  have hmax : (ChunkCache.new 1).maxMemoryUsage = 1048576 := by decide
  have hcur : (ChunkCache.new 1).currentMemory = 0 := rfl
  have hrun₀ : CacheRun (fun c chunk => FitsCache c chunk ∧ Balanced c chunk) (.new 1) [] (.new 1) := .new
  have hc₀ : CacheOK (.new 1) [] := cacheOK_new (by omega)
  have hfit₁ : FitsCache (.new 1) a := by unfold FitsCache; omega
  have hid₁ : ∀ e ∈ ([] : List Slot), e.id ≠ 0 := by simp
  obtain ⟨c₁, hrun₁, hmax₁, hc₁, hm₁⟩ := fetch_room hrun₀ hc₀ 0 hid₁ hfit₁
    ⟨hfit₁, (balanced_iff (get_miss hc₀ hid₁).2 a).2 (.inl (by simp [hmax, ha]))⟩ (by omega)
  have hfit₂ : FitsCache c₁ b := by unfold FitsCache; omega
  have hid₂ : ∀ e ∈ ([⟨(ChunkCache.new 1).fresh, 0, a⟩] : List Slot), e.id ≠ 1 := by simp
  obtain ⟨c₂, hrun₂, hmax₂, hc₂, hm₂⟩ := fetch_room hrun₁ hc₁ 1 hid₂ hfit₂
    ⟨hfit₂, (balanced_iff (get_miss hc₁ hid₂).2 b).2 (.inl (by simp [hmax₁, hmax, ha, hb]))⟩ (by omega)
  -- full: the third takes the place of the first
  have hfit₃ : FitsCache c₂ d := by unfold FitsCache; omega
  have hid₃ : ∀ e ∈ ([⟨c₁.fresh, 1, b⟩, ⟨(ChunkCache.new 1).fresh, 0, a⟩] : List Slot), e.id ≠ 2 := by simp
  have hlast : ([⟨c₁.fresh, 1, b⟩, ⟨(ChunkCache.new 1).fresh, 0, a⟩] : List Slot) =
    [⟨c₁.fresh, 1, b⟩] ++ [⟨(ChunkCache.new 1).fresh, 0, a⟩] := rfl
  obtain ⟨c₃, hrun₃, hmax₃, hc₃, -⟩ := fetch_full hrun₂ hc₂ hlast 2 hid₃ hfit₃
    ⟨hfit₃, (balanced_iff (get_miss hc₂ hid₃).2 d).2 (.inr (by simp [ha, hb, hd]))⟩ (by omega)
  exact ⟨c₃, _, _, hrun₃, hc₃, by omega⟩

theorem exists_chunk (n : ℕ) : ∃ chunk : Chunk, chunk.len = n :=
  ⟨⟨List.replicate n 0, 0⟩, List.length_replicate⟩

/-- Behind them, a chunk as long as the second, which it evicts, keeps the limit, and one that is a byte
longer does not. -/
theorem memory_kept_three : ∃ a b d x y c c₁ c₂, x.len = 524287 ∧ y.len = 524288 ∧
    CacheRun (fun c chunk => FitsCache c chunk ∧ Balanced c chunk) (.new 1) [.got 3 none, .added 2 d,
      .evicted 0, .got 2 none, .added 1 b, .got 1 none, .added 0 a, .got 0 none] c ∧
    MemoryOK c ∧ c.memoryUsed = 1048575 ∧
    c.add 3 x = some c₁ ∧ MemoryOK c₁ ∧ c.add 3 y = some c₂ ∧ ¬ MemoryOK c₂ := by
  obtain ⟨a, ha⟩ := exists_chunk 524288
  obtain ⟨b, hb⟩ := exists_chunk 524287
  obtain ⟨d, hd⟩ := exists_chunk 524288
  obtain ⟨x, hx⟩ := exists_chunk 524287
  obtain ⟨y, hy⟩ := exists_chunk 524288
  obtain ⟨c, p, q, hrun, hc, hmax⟩ := fetch_balanced ha hb hd
  have hid : ∀ e ∈ ([⟨p, 2, d⟩, ⟨q, 1, b⟩] : List Slot), e.id ≠ 3 := by simp
  obtain ⟨hg, hc₁⟩ := get_miss hc hid
  have hused := memoryUsed_slots hc₁
  simp only [List.map_cons, List.map_nil, List.sum_cons, List.sum_nil, hd, hb, Nat.reduceAdd] at hused
  obtain ⟨hm, hadd⟩ := memory_kept_iff (by decide) (.get hrun hg)
  obtain ⟨c₁, ha₁, hiff₁⟩ := hadd 3 _ rfl x (by simp [FitsCache, hmax, hx])
  obtain ⟨c₂, ha₂, hiff₂⟩ := hadd 3 _ rfl y (by simp [FitsCache, hmax, hy])
  rw [balanced_iff hc₁] at hiff₁ hiff₂
  exact ⟨a, b, d, x, y, _, c₁, c₂, hx, hy, .get hrun hg, hm, hused, ha₁, hiff₁.2 (by simp [hd, hb, hx]),
    ha₂, fun hok => absurd (hiff₂.1 hok) (by simp [hmax, hd, hb, hy])⟩

/-- Chunks of 1, 1048575 and 1048574 bytes in a cache of 1 MiB: the second evicts the first, the third
nothing. -/
theorem fetch_three {a b d : Chunk} (ha : a.len = 1) (hb : b.len = 1048575) (hd : d.len = 1048574) :
    ∃ h c, CacheRun FitsCache (.new 1) h c ∧ c.maxMemoryUsage = 1048576 ∧ c.chunks = [d, b] ∧
      c.currentMemory = 1048575 := by
  have hmax : (ChunkCache.new 1).maxMemoryUsage = 1048576 := by decide
  have hcur : (ChunkCache.new 1).currentMemory = 0 := rfl
  have hrun₀ : CacheRun FitsCache (.new 1) [] (.new 1) := .new
  have hfit₁ : FitsCache (.new 1) a := by unfold FitsCache; omega
  obtain ⟨c₁, hrun₁, hmax₁, hc₁, hm₁⟩ := fetch_room hrun₀ (cacheOK_new (by omega)) 0 (by simp) hfit₁ hfit₁ (by omega)
  have hfit₂ : FitsCache c₁ b := by unfold FitsCache; omega
  have hlast : ([⟨(ChunkCache.new 1).fresh, 0, a⟩] : List Slot) = [] ++ [⟨(ChunkCache.new 1).fresh, 0, a⟩] := rfl
  obtain ⟨c₂, hrun₂, hmax₂, hc₂, hm₂⟩ := fetch_full hrun₁ hc₁ hlast 1 (by simp) hfit₂ hfit₂ (by omega)
  have hfit₃ : FitsCache c₂ d := by unfold FitsCache; omega
  obtain ⟨c₃, hrun₃, hmax₃, hc₃, hm₃⟩ := fetch_room hrun₂ hc₂ 2 (by simp) hfit₃ hfit₃ (by omega)
  exact ⟨_, c₃, hrun₃, by omega, chunks_eq hc₃, by omega⟩

/-- **More than 1 MiB in a cache of 1 MiB.** -/
theorem memory_exceeds : ∃ h c, CacheRun FitsCache (.new 1) h c ∧ c.maxMemoryUsage = 1048576 ∧
    c.currentMemory = 1048575 ∧ c.memoryUsed = 2097149 ∧ ¬ MemoryOK c := by
  obtain ⟨h, c, hrun, hmax, hchunks, hcur⟩ := fetch_three (a := ⟨List.replicate 1 0, 0⟩)
    (b := ⟨List.replicate 1048575 0, 1⟩) (d := ⟨List.replicate 1048574 0, 2⟩)
    List.length_replicate List.length_replicate List.length_replicate
  have hused : c.memoryUsed = 2097149 := by
    unfold ChunkCache.memoryUsed Chunk.len
    rw [hchunks, List.map_cons, List.map_singleton, List.length_replicate, List.length_replicate]
    rfl
  refine ⟨h, c, hrun, hmax, hcur, hused, fun hok => ?_⟩
  have hcounter := hok.counter
  omega

end ChunkGrouping
