import ChunkGrouping.Model.ChunkCacheRun

/-!
# The cache is a list of chunks, most recently used first

`CacheOK c es`: the cache `c` holds the entries `es`, in the order of its list.
It ties the list, the hash map and the byte counter together.

* `get_hit`, `get_miss`: `get` moves the entry it finds to the front.
* `evictLoop_ok`: the eviction loop frees at most one node, the last one, and never
  reaches a sentinel: with no entry the counter is 0 (`CacheOK.ne_nil`).
* `add_ok`: `add` puts the new entry in front.
* `add_memory`: an eviction gives back what the insertion takes.
* `fetch_room`, `fetch_full`: a lookup that misses and the insertion behind it.
-/

namespace ChunkGrouping

open DList Recency

/-- An entry and the address of its node. -/
structure Slot where
  ptr : ℕ
  id : ℕ
  chunk : Chunk

/-- The addresses from `dummy_head` to `dummy_tail`. -/
def ring (c : ChunkCache) (es : List Slot) : List ℕ :=
  c.dummyHead :: (es.map Slot.ptr ++ [c.dummyTail])

/-- **The cache holds `es`**, most recently used first. -/
structure CacheOK (c : ChunkCache) (es : List Slot) : Prop where
  linked : Linked c.heap (ring c es)
  nodup : (ring c es).Nodup
  nodes : ∀ e ∈ es, valAt c.heap e.ptr = some ⟨e.id, some e.chunk⟩
  ids : (es.map Slot.id).Nodup
  map : ∀ id p, c.map id = some p ↔ ∃ e ∈ es, e.id = id ∧ e.ptr = p
  fresh : ∀ p, c.fresh ≤ p → c.heap p = none
  fresh_ge : 2 ≤ c.fresh
  memory : c.currentMemory < c.maxMemoryUsage
  max_lt : c.maxMemoryUsage < 2 ^ 64
  empty : es = [] → c.currentMemory = 0

variable {c : ChunkCache} {es : List Slot}

theorem cacheOK_new {cacheSize : ℕ} (h : 0 < (ChunkCache.new cacheSize).maxMemoryUsage) :
    CacheOK (.new cacheSize) [] where
  linked := by
    unfold Linked ring
    simp [ChunkCache.new, Link]
  nodup := by simp [ring, ChunkCache.new]
  nodes := by simp
  ids := by simp
  map := by simp [ChunkCache.new]
  fresh := by
    intro p hp
    simp only [ChunkCache.new] at hp ⊢
    rw [if_neg (by omega), if_neg (by omega)]
  fresh_ge := by simp [ChunkCache.new]
  memory := h
  max_lt := Nat.mod_lt _ (by omega)
  empty := fun _ => rfl

/-- Every address of a linked ring has a node. -/
theorem isSome_of_mem_ring {heap : Heap CacheEntry} (hl : Linked heap (ring c es)) {p : ℕ} (hp : p ∈ ring c es) :
    (heap p).isSome := by
  unfold ring at hl hp
  obtain ⟨b, ys, hb⟩ := List.exists_cons_of_ne_nil (l := es.map Slot.ptr ++ [c.dummyTail]) (by simp)
  rw [hb] at hl hp
  exact hl.isSome p hp

theorem CacheOK.mem_ring (h : CacheOK c es) {p : ℕ} (hp : p ∈ ring c es) : (c.heap p).isSome :=
  isSome_of_mem_ring h.linked hp

theorem ptr_mem_ring (c : ChunkCache) {e : Slot} (he : e ∈ es) : e.ptr ∈ ring c es :=
  List.mem_cons_of_mem _ (List.mem_append_left _ (List.mem_map_of_mem he))

/-- Putting a node at the head of a ring it is not in. -/
theorem insertToHead_ok {c : ChunkCache} {p : ℕ} {rest : List ℕ} (hr : rest ≠ [])
    (hl : Linked c.heap (c.dummyHead :: rest)) (hnd : (c.dummyHead :: p :: rest).Nodup)
    (hp : (c.heap p).isSome) :
    ∃ heap, c.insertToHead p = some { c with heap } ∧ Linked heap (c.dummyHead :: p :: rest) ∧
      ∀ q, valAt heap q = valAt c.heap q := by
  obtain ⟨b, ys, rfl⟩ := List.exists_cons_of_ne_nil hr
  obtain ⟨heap, hi, hl', hv⟩ := insertAfter_linked hl hnd hp
  exact ⟨heap, by simp [ChunkCache.insertToHead, hi], hl', hv⟩

theorem heap_none_iff {h h' : Heap CacheEntry} (hv : ∀ q, valAt h' q = valAt h q) (p : ℕ) :
    h' p = none ↔ h p = none := by
  have := hv p
  unfold valAt at this
  rw [← Option.map_eq_none_iff (f := Node.val), this, Option.map_eq_none_iff]

/-! ## The hash map -/

variable {map : ℕ → Option ℕ}

/-- Without the last entry. -/
theorem map_erase {xs : List Slot} {e : Slot} (h : ∀ id p, map id = some p ↔ ∃ x ∈ xs ++ [e], x.id = id ∧ x.ptr = p)
    (hne : ∀ x ∈ xs, x.id ≠ e.id) (id p : ℕ) :
    Function.update map e.id none id = some p ↔ ∃ x ∈ xs, x.id = id ∧ x.ptr = p := by
  by_cases hid : id = e.id
  · subst hid
    rw [Function.update_self]
    simp only [reduceCtorEq, false_iff, not_exists, not_and]
    exact fun x hx hxe => absurd hxe (hne x hx)
  · rw [Function.update_of_ne hid, h]
    constructor
    · rintro ⟨x, hx, rfl, rfl⟩
      rcases List.mem_append.1 hx with hx | hx
      · exact ⟨x, hx, rfl, rfl⟩
      · exact absurd (by rw [List.mem_singleton.1 hx]) hid
    · rintro ⟨x, hx, rfl, rfl⟩
      exact ⟨x, List.mem_append_left _ hx, rfl, rfl⟩

/-- With a new one in front. -/
theorem map_insert {e : Slot} (h : ∀ id p, map id = some p ↔ ∃ x ∈ es, x.id = id ∧ x.ptr = p)
    (hne : ∀ x ∈ es, x.id ≠ e.id) (id p : ℕ) :
    Function.update map e.id (some e.ptr) id = some p ↔ ∃ x ∈ e :: es, x.id = id ∧ x.ptr = p := by
  rw [List.exists_mem_cons_iff]
  by_cases hid : id = e.id
  · subst hid
    rw [Function.update_self, Option.some.injEq]
    constructor
    · rintro rfl
      exact .inl ⟨rfl, rfl⟩
    · rintro (⟨-, rfl⟩ | ⟨x, hx, hxe, -⟩)
      · rfl
      · exact absurd hxe (hne x hx)
  · rw [Function.update_of_ne hid, h]
    constructor
    · exact .inr
    · rintro (⟨he, -⟩ | hx)
      · exact absurd he.symm hid
      · exact hx

/-! ## Lookups -/

/-- A lookup of an id not in the cache. -/
theorem get_miss (h : CacheOK c es) {id : ℕ} (hid : ∀ e ∈ es, e.id ≠ id) :
    c.get id = some (none, { c with cacheMiss := c.cacheMiss + 1 }) ∧
      CacheOK { c with cacheMiss := c.cacheMiss + 1 } es := by
  have hm : c.map id = none := by
    cases hc : c.map id with
    | none => rfl
    | some p =>
      obtain ⟨e, he, hei, -⟩ := (h.map id p).1 hc
      exact absurd hei (hid e he)
  exact ⟨by simp [ChunkCache.get, hm], ⟨h.linked, h.nodup, h.nodes, h.ids, h.map, h.fresh, h.fresh_ge,
    h.memory, h.max_lt, h.empty⟩⟩

/-- **A lookup that hits** returns the entry's chunk and moves the entry to the front. -/
theorem get_hit {xs ys : List Slot} {e : Slot} (h : CacheOK c (xs ++ e :: ys)) :
    ∃ c', c.get e.id = some (some e.chunk, c') ∧ CacheOK c' (e :: (xs ++ ys)) ∧
      c'.maxMemoryUsage = c.maxMemoryUsage := by
  have hmem : e ∈ xs ++ e :: ys := by simp
  have hm : c.map e.id = some e.ptr := (h.map _ _).2 ⟨e, hmem, rfl, rfl⟩
  have hring : ring c (xs ++ e :: ys) =
      (c.dummyHead :: xs.map Slot.ptr) ++ e.ptr :: (ys.map Slot.ptr ++ [c.dummyTail]) := by
    simp [ring]
  have hl := h.linked
  have hnd := h.nodup
  rw [hring] at hl hnd
  obtain ⟨n, heap₁, hn, -, hu, hl₁, hv₁⟩ := remove_linked (by simp) (by simp) hl hnd
  -- the node is out of the list, but not freed
  set c₁ : ChunkCache := { c with heap := heap₁, cacheHits := c.cacheHits + 1 } with hc₁
  have hp₁ : (c₁.heap e.ptr).isSome := by
    have := mt (heap_none_iff hv₁ e.ptr).1 (by simp [hn])
    exact Option.isSome_iff_ne_none.2 this
  -- moving it to the front rearranges the ring
  have hnd' : (c.dummyHead :: e.ptr :: (xs.map Slot.ptr ++ (ys.map Slot.ptr ++ [c.dummyTail]))).Nodup := by
    have hperm : List.Perm (c.dummyHead :: e.ptr :: (xs.map Slot.ptr ++ (ys.map Slot.ptr ++ [c.dummyTail])))
        ((c.dummyHead :: xs.map Slot.ptr) ++ e.ptr :: (ys.map Slot.ptr ++ [c.dummyTail])) :=
      List.Perm.cons _ List.perm_middle.symm
    exact hperm.nodup_iff.2 hnd
  obtain ⟨heap₂, hi, hl₂, hv₂⟩ := insertToHead_ok (c := c₁) (p := e.ptr)
    (show xs.map Slot.ptr ++ (ys.map Slot.ptr ++ [c.dummyTail]) ≠ [] by simp) hl₁ hnd' hp₁
  have hv : ∀ q, valAt heap₂ q = valAt c.heap q := fun q => (hv₂ q).trans (hv₁ q)
  have hperm : List.Perm (xs ++ e :: ys) (e :: (xs ++ ys)) := List.perm_middle
  refine ⟨{ c₁ with heap := heap₂ }, ?_, ?_, rfl⟩
  · simp only [ChunkCache.get, hm, hn, Option.bind_eq_bind, Option.bind_some, hu, ← hc₁, hi]
    rw [hv, h.nodes e hmem]
    rfl
  · refine ⟨?_, ?_, ?_, ?_, ?_, ?_, h.fresh_ge, h.memory, h.max_lt, by simp⟩
    · simpa [ring] using hl₂
    · simpa [ring] using hnd'
    · intro x hx
      simp only
      rw [hv, h.nodes x (hperm.mem_iff.2 hx)]
    · exact (hperm.map Slot.id).nodup_iff.1 h.ids
    · intro id p
      rw [show ({ c₁ with heap := heap₂ } : ChunkCache).map = c.map from rfl, h.map]
      simp only [hperm.mem_iff]
    · intro p hp
      exact (heap_none_iff hv p).2 (h.fresh p hp)

/-! ## Eviction and insertion -/

/-- The entries left when a chunk of length `len` is to be added. -/
def evicted (c : ChunkCache) (len : ℕ) (es : List Slot) : List Slot :=
  if c.maxMemoryUsage ≤ (c.currentMemory + len) % 2 ^ 64 then es.dropLast else es

theorem mem_of_mem_evicted {len : ℕ} {e : Slot} (he : e ∈ evicted c len es) : e ∈ es := by
  unfold evicted at he
  split at he
  · exact List.mem_of_mem_dropLast he
  · exact he

/-- Subtracting and adding the same length gives the counter back, modulo `2^64`. -/
theorem sub_add_mod {m len : ℕ} (hm : m < 2 ^ 64) (hl : len < 2 ^ 64) :
    ((m + 2 ^ 64 - len) % 2 ^ 64 + len) % 2 ^ 64 = m := by omega

/-- What the eviction loop leaves: the rest of the list, and room for `len` bytes. -/
structure EvictOK (len : ℕ) (c c' : ChunkCache) (es : List Slot) : Prop where
  linked : Linked c'.heap (ring c es)
  nodup : (ring c es).Nodup
  nodes : ∀ e ∈ es, valAt c'.heap e.ptr = some ⟨e.id, some e.chunk⟩
  ids : (es.map Slot.id).Nodup
  map : ∀ id p, c'.map id = some p ↔ ∃ e ∈ es, e.id = id ∧ e.ptr = p
  fresh : ∀ p, c.fresh ≤ p → c'.heap p = none
  room : (c'.currentMemory + len) % 2 ^ 64 < c.maxMemoryUsage
  frame : c'.maxMemoryUsage = c.maxMemoryUsage ∧ c'.dummyHead = c.dummyHead ∧
    c'.dummyTail = c.dummyTail ∧ c'.fresh = c.fresh

/-- An empty cache has room. -/
theorem CacheOK.ne_nil (h : CacheOK c es) {len : ℕ} (hlen : len < c.maxMemoryUsage)
    (hc : c.maxMemoryUsage ≤ (c.currentMemory + len) % 2 ^ 64) : es ≠ [] := by
  intro he
  have hmax := h.max_lt
  rw [h.empty he, Nat.zero_add, Nat.mod_eq_of_lt (by omega)] at hc
  omega

/-- **A round of the loop** frees the last node, and leaves room. -/
theorem evictOne_ok {xs : List Slot} {e : Slot} (h : CacheOK c (xs ++ [e])) {len : ℕ}
    (hlen : len < c.maxMemoryUsage) :
    ∃ heap, c.evictOne len = some (e.ptr, e.id, { c with
        heap
        map := Function.update c.map e.id none
        currentMemory := (c.currentMemory + 2 ^ 64 - len) % 2 ^ 64 }) ∧
      EvictOK len c { c with
        heap
        map := Function.update c.map e.id none
        currentMemory := (c.currentMemory + 2 ^ 64 - len) % 2 ^ 64 } xs := by
  have hmem := h.memory
  have hmax := h.max_lt
  have hroom : ((c.currentMemory + 2 ^ 64 - len) % 2 ^ 64 + len) % 2 ^ 64 < c.maxMemoryUsage := by
    have := sub_add_mod (hmem.trans hmax) (hlen.trans hmax)
    omega
  have hring : ring c (xs ++ [e]) = (c.dummyHead :: xs.map Slot.ptr) ++ e.ptr :: [c.dummyTail] := by
    simp [ring]
  have hringx : ring c xs = (c.dummyHead :: xs.map Slot.ptr) ++ [c.dummyTail] := by simp [ring]
  have hl := h.linked
  have hnd := h.nodup
  rw [hring] at hl hnd
  obtain ⟨n, heap₁, hn, hnext, hu, hl₁, hv₁⟩ := remove_linked (by simp) (by simp) hl hnd
  simp only [List.head?_cons, Option.some.injEq] at hnext
  -- the node in front of `dummy_tail` is that of `e`
  obtain ⟨t, ht, htp⟩ := (List.isChain_cons_cons.1 (List.isChain_split.1 hl).2).1.right
  have hval : n.val = ⟨e.id, some e.chunk⟩ := by
    have := h.nodes e (by simp)
    simpa [valAt, hn] using this
  -- freeing it leaves the nodes of the ring
  rw [List.nodup_append] at hnd
  have hnot : e.ptr ∉ ring c xs := by
    rw [hringx, List.mem_append]
    rintro (hm | hm)
    · exact hnd.2.2 _ hm _ List.mem_cons_self rfl
    · exact (List.nodup_cons.1 hnd.2.1).1 hm
  have hids := h.ids
  rw [List.map_append, List.map_singleton, List.nodup_append] at hids
  have hidn : ∀ x ∈ xs, x.id ≠ e.id := fun x hx hxe =>
    hids.2.2 x.id (List.mem_map_of_mem hx) e.id (List.mem_singleton_self _) hxe
  refine ⟨Function.update heap₁ e.ptr none, ?_, ?_, ?_, ?_, hids.1, ?_, ?_, ?_, rfl, rfl, rfl, rfl⟩
  · rw [← hnext] at hu
    unfold ChunkCache.evictOne
    rw [ht]
    simp only [Option.bind_eq_bind, Option.bind_some, htp, hn, hu, hval]
  · refine Linked.congr (fun p hp => ?_) (by simpa [ring] using hl₁)
    exact Function.update_of_ne (fun hpe : p = e.ptr => hnot (hpe ▸ hp)) _ _
  · rw [hringx, List.nodup_append]
    exact ⟨hnd.1, by simp, fun a ha b hb => hnd.2.2 a ha b (List.mem_cons_of_mem _ hb)⟩
  · intro x hx
    have hxp : x.ptr ≠ e.ptr := fun hxe => hnot (hxe ▸ ptr_mem_ring c hx)
    have := h.nodes x (List.mem_append_left _ hx)
    rw [← hv₁] at this
    simpa [valAt, Function.update_of_ne hxp] using this
  · exact map_erase h.map hidn
  · intro p hp
    by_cases hpe : p = e.ptr
    · simp [hpe]
    · simp only [Function.update_of_ne hpe]
      exact (heap_none_iff hv₁ p).2 (h.fresh p hp)
  · exact hroom

/-- **The eviction loop** ends after at most one round. -/
theorem evictLoop_eq (h : CacheOK c es) {len : ℕ} (hlen : len < c.maxMemoryUsage) :
    ChunkCache.evictLoop len c.fresh c = if c.maxMemoryUsage ≤ (c.currentMemory + len) % 2 ^ 64 then
      (c.evictOne len).map fun r => r.2.2 else some c := by
  obtain ⟨k, hk⟩ : ∃ k, c.fresh = k + 2 := ⟨c.fresh - 2, by have := h.fresh_ge; omega⟩
  rw [hk, ChunkCache.evictLoop_succ]
  refine ite_congr rfl (fun hc => ?_) fun _ => rfl
  obtain ⟨xs, e, rfl⟩ := (List.eq_nil_or_concat' es).resolve_left (h.ne_nil hlen hc)
  obtain ⟨heap, hone, hok⟩ := evictOne_ok h hlen
  have hroom := Nat.not_le.2 hok.room
  simp only at hroom
  simp only [hone, Option.bind_some, Option.map_some]
  rw [ChunkCache.evictLoop_succ, if_neg hroom]

/-- **The eviction loop** ends after at most one round, which frees the last node. -/
theorem evictLoop_ok (h : CacheOK c es) {len : ℕ} (hlen : len < c.maxMemoryUsage) :
    ∃ c', ChunkCache.evictLoop len c.fresh c = some c' ∧ EvictOK len c c' (evicted c len es) := by
  rw [evictLoop_eq h hlen]
  unfold evicted
  by_cases hc : c.maxMemoryUsage ≤ (c.currentMemory + len) % 2 ^ 64
  · rw [if_pos hc, if_pos hc]
    obtain ⟨xs, e, rfl⟩ := (List.eq_nil_or_concat' es).resolve_left (h.ne_nil hlen hc)
    obtain ⟨heap, hone, hok⟩ := evictOne_ok h hlen
    rw [List.dropLast_concat, hone]
    exact ⟨_, rfl, hok⟩
  · rw [if_neg hc, if_neg hc]
    exact ⟨c, rfl, h.linked, h.nodup, h.nodes, h.ids, h.map, h.fresh, by omega, rfl, rfl, rfl, rfl⟩

/-- The nodes the loop frees. -/
theorem evictions_eq (h : CacheOK c es) {len : ℕ} (hlen : len < c.maxMemoryUsage) :
    c.evictions len c.fresh = if c.maxMemoryUsage ≤ (c.currentMemory + len) % 2 ^ 64 then
      es.getLast?.toList.map fun e => (e.ptr, e.id) else [] := by
  obtain ⟨k, hk⟩ : ∃ k, c.fresh = k + 2 := ⟨c.fresh - 2, by have := h.fresh_ge; omega⟩
  rw [hk, ChunkCache.evictions]
  refine ite_congr rfl (fun hc => ?_) fun _ => rfl
  obtain ⟨xs, e, rfl⟩ := (List.eq_nil_or_concat' es).resolve_left (h.ne_nil hlen hc)
  obtain ⟨heap, hone, hok⟩ := evictOne_ok h hlen
  have hroom := Nat.not_le.2 hok.room
  simp only at hroom
  simp only [hone]
  rw [ChunkCache.evictions, if_neg hroom]
  simp

/-- **Adding a chunk** that a lookup just missed puts it in front of what the eviction leaves. -/
theorem add_ok (h : CacheOK c es) {id : ℕ} {chunk : Chunk} (hid : ∀ e ∈ es, e.id ≠ id)
    (hlen : chunk.len < c.maxMemoryUsage) :
    ∃ c', c.add id chunk = some c' ∧ c'.maxMemoryUsage = c.maxMemoryUsage ∧
      CacheOK c' (⟨c.fresh, id, chunk⟩ :: evicted c chunk.len es) := by
  obtain ⟨c₁, he, hev⟩ := evictLoop_ok h hlen
  obtain ⟨hf1, hf2, hf3, hf4⟩ := hev.frame
  set es₁ := evicted c chunk.len es with hes₁
  have hsub : ∀ e ∈ es₁, e ∈ es := fun e hm => mem_of_mem_evicted hm
  -- the new node is none of those in the list
  have hnot : c.fresh ∉ ring c es₁ := by
    intro hm
    have hsome := isSome_of_mem_ring hev.linked hm
    rw [hev.fresh _ le_rfl] at hsome
    cases hsome
  set c₂ : ChunkCache := { c₁ with
    currentMemory := (c₁.currentMemory + chunk.len) % 2 ^ 64
    heap := Function.update c₁.heap c₁.fresh (some ⟨0, 0, ⟨id, some chunk⟩⟩)
    map := Function.update c₁.map id (some c₁.fresh)
    fresh := c₁.fresh + 1 } with hc₂
  have hold : ∀ p, p ≠ c.fresh → c₂.heap p = c₁.heap p := fun p hp => by
    simp only [c₂, hf4, Function.update_of_ne hp]
  -- it is linked in front of what the eviction left
  have hl₂ : Linked c₂.heap (c₂.dummyHead :: (es₁.map Slot.ptr ++ [c.dummyTail])) := by
    have : c₂.dummyHead = c.dummyHead := hf2
    rw [this]
    exact Linked.congr (fun p hp => hold p fun hpe => hnot (hpe ▸ hp)) hev.linked
  have hnd₂ : (c₂.dummyHead :: c.fresh :: (es₁.map Slot.ptr ++ [c.dummyTail])).Nodup := by
    have hh : c₂.dummyHead = c.dummyHead := hf2
    have hr := hev.nodup
    unfold ring at hr hnot
    rw [hh]
    rw [List.nodup_cons] at hr ⊢
    simp only [List.mem_cons, not_or] at hnot ⊢
    exact ⟨⟨fun hp => hnot.1 hp.symm, hr.1⟩, List.nodup_cons.2 ⟨hnot.2, hr.2⟩⟩
  obtain ⟨heap₃, hi, hl₃, hv₃⟩ := insertToHead_ok (c := c₂) (by simp) hl₂ hnd₂ (by simp [c₂, hf4])
  have hfresh : valAt c₂.heap c.fresh = some ⟨id, some chunk⟩ := by simp [valAt, c₂, hf4]
  have hptr : ∀ e ∈ es₁, e.ptr ≠ c.fresh := fun e hm hpe => hnot (hpe ▸ ptr_mem_ring c hm)
  have hne : ∀ e ∈ es₁, e.id ≠ id := fun e hm => hid e (hsub e hm)
  have hring : ring { c₂ with heap := heap₃ } (⟨c.fresh, id, chunk⟩ :: es₁) =
      c₂.dummyHead :: c.fresh :: (es₁.map Slot.ptr ++ [c.dummyTail]) := by
    simp only [ring, List.map_cons, List.cons_append]
    rw [show c₂.dummyTail = c.dummyTail from hf3]
  refine ⟨{ c₂ with heap := heap₃ }, ?_, hf1, ?_, ?_, ?_, ?_, ?_, ?_, ?_, ?_, ?_, by simp⟩
  · rw [hf4.symm] at hi
    simp only [ChunkCache.add, he, Option.bind_eq_bind, Option.bind_some]
    exact hi
  · rw [hring]; exact hl₃
  · rw [hring]; exact hnd₂
  · intro e hm
    simp only
    rw [hv₃]
    rcases List.mem_cons.1 hm with rfl | hm
    · exact hfresh
    · rw [← hev.nodes e hm, valAt, hold _ (hptr e hm)]; rfl
  · rw [List.map_cons, List.nodup_cons]
    refine ⟨?_, hev.ids⟩
    intro hm
    obtain ⟨e, hm, hei⟩ := List.mem_map.1 hm
    exact hne e hm hei
  · intro x p
    rw [← map_insert (e := ⟨c.fresh, id, chunk⟩) hev.map hne]
    simp only [c₂, hf4]
  · intro p hp
    simp only [c₂, hf4] at hp
    refine (heap_none_iff hv₃ p).2 ?_
    rw [hold p (by omega)]
    exact hev.fresh p (by omega)
  · simp only [c₂, hf4]; have := h.fresh_ge; omega
  · simp only [c₂, hf1]; exact hev.room
  · simp only [c₂, hf1]; exact h.max_lt

/-! ## The counter -/

theorem insertToHead_memory {node : ℕ} {c' : ChunkCache} (h : c.insertToHead node = some c') :
    c'.currentMemory = c.currentMemory := by
  obtain ⟨heap, -, hc⟩ := Option.bind_eq_some_iff.1 h
  obtain rfl := Option.some.inj hc
  rfl

/-- A lookup leaves the counter. -/
theorem get_memory {id : ℕ} {r : Option Chunk} {c' : ChunkCache} (hg : c.get id = some (r, c')) :
    c'.currentMemory = c.currentMemory := by
  unfold ChunkCache.get at hg
  split at hg
  · obtain ⟨-, rfl⟩ := Prod.mk.inj (Option.some.inj hg)
    rfl
  · obtain ⟨n, -, hg⟩ := Option.bind_eq_some_iff.1 hg
    obtain ⟨heap, -, hg⟩ := Option.bind_eq_some_iff.1 hg
    obtain ⟨c₁, hins, hg⟩ := Option.bind_eq_some_iff.1 hg
    obtain ⟨e, -, hg⟩ := Option.bind_eq_some_iff.1 hg
    obtain ⟨-, rfl⟩ := Prod.mk.inj (Option.some.inj hg)
    have hcount := insertToHead_memory hins
    exact hcount

/-- **The counter after an insertion**: an eviction gives back what the insertion takes. -/
theorem add_memory (hc : CacheOK c es) {id : ℕ} {chunk : Chunk} (hlen : FitsCache c chunk) {c' : ChunkCache}
    (hadd : c.add id chunk = some c') :
    c'.currentMemory = if c.maxMemoryUsage ≤ (c.currentMemory + chunk.len) % 2 ^ 64 then c.currentMemory
      else (c.currentMemory + chunk.len) % 2 ^ 64 := by
  obtain ⟨c₁, he, hins⟩ := Option.bind_eq_some_iff.1 hadd
  rw [insertToHead_memory hins]
  rw [evictLoop_eq hc hlen] at he
  split at he
  · next hfull =>
    rw [if_pos hfull]
    obtain ⟨xs, e, rfl⟩ := (List.eq_nil_or_concat' es).resolve_left (hc.ne_nil hlen hfull)
    obtain ⟨heap, hone, -⟩ := evictOne_ok hc hlen
    rw [hone, Option.map_some] at he
    obtain rfl := Option.some.inj he
    exact sub_add_mod (hc.memory.trans hc.max_lt) (hlen.trans hc.max_lt)
  · next hroom =>
    rw [if_neg hroom]
    obtain rfl := Option.some.inj he
    rfl

/-- The events of an insertion: into a full cache, the last entry goes. -/
theorem addEvents_eq (h : CacheOK c es) {id : ℕ} {chunk : Chunk} (hlen : FitsCache c chunk) :
    addEvents id chunk c = .added id chunk :: if c.maxMemoryUsage ≤ (c.currentMemory + chunk.len) % 2 ^ 64 then
      es.getLast?.toList.map fun e => .evicted e.id else [] := by
  unfold addEvents
  rw [evictions_eq h hlen]
  split
  · cases es.getLast? <;> rfl
  · rfl

/-- **A lookup that misses, and the insertion behind it.** -/
theorem fetch_ok {ok : ChunkCache → Chunk → Prop} {c₀ : ChunkCache} {h : List (Event ℕ Chunk)}
    (hrun : CacheRun ok c₀ h c) (hc : CacheOK c es) (id : ℕ) {chunk : Chunk} (hid : ∀ e ∈ es, e.id ≠ id)
    (hlen : FitsCache c chunk) (hallow : ok { c with cacheMiss := c.cacheMiss + 1 } chunk) :
    ∃ c', CacheRun ok c₀ (.added id chunk :: ((if c.maxMemoryUsage ≤ (c.currentMemory + chunk.len) % 2 ^ 64 then
        es.getLast?.toList.map fun e => .evicted e.id else []) ++ .got id none :: h)) c' ∧
      c'.maxMemoryUsage = c.maxMemoryUsage ∧ CacheOK c' (⟨c.fresh, id, chunk⟩ :: evicted c chunk.len es) ∧
      c'.currentMemory = if c.maxMemoryUsage ≤ (c.currentMemory + chunk.len) % 2 ^ 64 then c.currentMemory
        else (c.currentMemory + chunk.len) % 2 ^ 64 := by
  obtain ⟨hg, hc₁⟩ := get_miss hc hid
  obtain ⟨c', hadd, hmax, hc'⟩ := add_ok hc₁ hid hlen
  have hrun' : CacheRun ok c₀ (addEvents id chunk { c with cacheMiss := c.cacheMiss + 1 } ++ .got id none :: h) c' :=
    .add (.get hrun hg) hallow hadd
  rw [addEvents_eq hc₁ hlen] at hrun'
  exact ⟨c', hrun', hmax, hc', add_memory hc₁ hlen hadd⟩

section Fetch

variable {ok : ChunkCache → Chunk → Prop} {c₀ : ChunkCache} {h : List (Event ℕ Chunk)} {chunk : Chunk}

/-- Where there is room for the chunk. -/
theorem fetch_room (hrun : CacheRun ok c₀ h c) (hc : CacheOK c es) (id : ℕ) (hid : ∀ e ∈ es, e.id ≠ id)
    (hlen : FitsCache c chunk) (hallow : ok { c with cacheMiss := c.cacheMiss + 1 } chunk)
    (hroom : c.currentMemory + chunk.len < c.maxMemoryUsage) :
    ∃ c', CacheRun ok c₀ (.added id chunk :: .got id none :: h) c' ∧ c'.maxMemoryUsage = c.maxMemoryUsage ∧
      CacheOK c' (⟨c.fresh, id, chunk⟩ :: es) ∧ c'.currentMemory = c.currentMemory + chunk.len := by
  obtain ⟨c', hrun', hmax, hc', hcount⟩ := fetch_ok hrun hc id hid hlen hallow
  have hmod : (c.currentMemory + chunk.len) % 2 ^ 64 = c.currentMemory + chunk.len :=
    Nat.mod_eq_of_lt (hroom.trans hc.max_lt)
  unfold evicted at hc'
  rw [hmod, if_neg (Nat.not_le.2 hroom)] at hrun' hc' hcount
  exact ⟨c', hrun', hmax, hc', hcount⟩

/-- Where there is none, and the last entry goes. -/
theorem fetch_full (hrun : CacheRun ok c₀ h c) (hc : CacheOK c es) {xs : List Slot} {e : Slot} (hes : es = xs ++ [e])
    (id : ℕ) (hid : ∀ e ∈ es, e.id ≠ id) (hlen : FitsCache c chunk)
    (hallow : ok { c with cacheMiss := c.cacheMiss + 1 } chunk)
    (hfull : c.maxMemoryUsage ≤ (c.currentMemory + chunk.len) % 2 ^ 64) :
    ∃ c', CacheRun ok c₀ (.added id chunk :: .evicted e.id :: .got id none :: h) c' ∧
      c'.maxMemoryUsage = c.maxMemoryUsage ∧ CacheOK c' (⟨c.fresh, id, chunk⟩ :: xs) ∧
      c'.currentMemory = c.currentMemory := by
  subst hes
  obtain ⟨c', hrun', hmax, hc', hcount⟩ := fetch_ok hrun hc id hid hlen hallow
  unfold evicted at hc'
  rw [if_pos hfull] at hrun' hc' hcount
  rw [List.getLast?_concat] at hrun'
  rw [List.dropLast_concat] at hc'
  exact ⟨c', hrun', hmax, hc', hcount⟩

end Fetch

end ChunkGrouping
