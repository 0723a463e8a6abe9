import ChunkGrouping.Proof.ChunkCache

/-!
# `ChunkCache` is a least-recently-used map

The entries of the cache are what the run so far leaves in a least-recently-used map
(`HistoryOK`). Each call keeps that (`get_history`, `add_history`), so it holds after
every run (`run_history`).

* `chunkCache_lru`: the list, the hash map and the results of the calls.
-/

namespace ChunkGrouping

open DList Recency

/-- The entry without its address. -/
def Slot.entry (e : Slot) : ℕ × Chunk := (e.id, e.chunk)

/-- **The cache holds what the history leaves**, in its order. -/
structure HistoryOK (c : ChunkCache) (h : List (Event ℕ Chunk)) (es : List Slot) : Prop where
  cache : CacheOK c es
  contents : es.map Slot.entry = contents h
  lru : IsLru h

variable {c : ChunkCache} {h : List (Event ℕ Chunk)} {es : List Slot}

/-- What is not held has no entry. -/
theorem HistoryOK.ne_of_held (hok : HistoryOK c h es) {id : ℕ} (hid : held id h = none) :
    ∀ e ∈ es, e.id ≠ id := by
  rintro e he rfl
  have hmem : e.entry ∈ es.map Slot.entry := List.mem_map_of_mem he
  rw [hok.contents, mem_contents] at hmem
  exact absurd (hid.symm.trans hmem) (by simp)

/-- **A lookup** returns what is held. -/
theorem get_history (hok : HistoryOK c h es) (id : ℕ) :
    ∃ c' es', c.get id = some (held id h, c') ∧ HistoryOK c' (.got id (held id h) :: h) es' ∧
      c'.maxMemoryUsage = c.maxMemoryUsage := by
  have hcont := contents_got (h := h) id (held id h)
  cases hid : held id h with
  | none =>
    obtain ⟨hg, hc⟩ := get_miss hok.cache (hok.ne_of_held hid)
    rw [hid, Option.map_none, Option.toList_none, List.nil_append, filter_ne_self hid] at hcont
    exact ⟨_, es, hg, ⟨hc, hok.contents.trans hcont.symm, hid.symm, hok.lru⟩, rfl⟩
  | some v =>
    obtain ⟨e, he, hev⟩ : ∃ e ∈ es, e.entry = (id, v) :=
      List.mem_map.1 (hok.contents ▸ mem_contents.2 hid)
    obtain ⟨rfl, rfl⟩ := Prod.mk.inj hev
    obtain ⟨xs, ys, rfl⟩ := List.append_of_mem he
    obtain ⟨c', hg, hc, hm⟩ := get_hit hok.cache
    refine ⟨c', _, hg, ⟨hc, ?_, hid.symm, hok.lru⟩, hm⟩
    have hsplit : contents h = xs.map Slot.entry ++ (e.id, e.chunk) :: ys.map Slot.entry := by
      rw [← hok.contents, List.map_append, List.map_cons]
      rfl
    have hnd := nodup_contents h
    rw [hid] at hcont
    rw [hsplit] at hnd hcont
    rw [hcont, filter_ne_middle hnd, List.map_cons, List.map_append]
    rfl

/-- **An insertion** behind a lookup that missed: the entry it evicts is the last. -/
theorem add_history {id : ℕ} (hok : HistoryOK c (.got id none :: h) es) {chunk : Chunk}
    (hlen : FitsCache c chunk) :
    ∃ c' es', c.add id chunk = some c' ∧ HistoryOK c' (addEvents id chunk c ++ .got id none :: h) es' ∧
      c'.maxMemoryUsage = c.maxMemoryUsage ∧ ∀ e ∈ c.evictions chunk.len c.fresh, e.1 ∈ es.map Slot.ptr := by
  have hid : held id (.got id none :: h) = none := hok.lru.1.symm
  obtain ⟨c', hadd, hm, hc⟩ := add_ok hok.cache (hok.ne_of_held hid) hlen
  have hist : (⟨c.fresh, id, chunk⟩ :: evicted c chunk.len es : List Slot).map Slot.entry =
      contents (addEvents id chunk c ++ .got id none :: h) ∧
      IsLru (addEvents id chunk c ++ .got id none :: h) := by
    rw [addEvents_eq hok.cache hlen]
    unfold evicted
    split
    · next hfull =>
      -- full: the last entry goes, which is the one least recently used
      obtain ⟨xs, e, rfl⟩ := (List.eq_nil_or_concat' es).resolve_left (hok.cache.ne_nil hlen hfull)
      have hsplit : contents (.got id none :: h) = xs.map Slot.entry ++ (e.id, e.chunk) :: [] := by
        rw [← hok.contents, List.map_append]
        rfl
      have hnd := nodup_contents (.got id none :: h : List (Event ℕ Chunk))
      have hrest := contents_evicted (h := (.got id none :: h : List (Event ℕ Chunk))) e.id
      rw [hsplit] at hnd hrest
      rw [filter_ne_middle hnd, List.append_nil] at hrest
      have hid' : held id (.evicted e.id :: .got id none :: h) = none := by
        rw [held, hid]
        exact ite_self none
      simp only [List.dropLast_concat, List.getLast?_concat, Option.toList_some, List.map_cons, List.map_nil,
        List.cons_append, List.nil_append]
      refine ⟨?_, hid', ?_, hok.lru⟩
      · rw [contents_added, filter_ne_self hid', hrest]
        rfl
      · rw [hsplit, List.getLast?_concat]
        rfl
    · -- there is room: the new entry in front, and nothing else
      simp only [List.cons_append, List.nil_append]
      refine ⟨?_, hid, hok.lru⟩
      rw [contents_added, filter_ne_self hid, ← hok.contents]
      rfl
  refine ⟨c', _, hadd, ⟨hc, hist.1, hist.2⟩, hm, ?_⟩
  rw [evictions_eq hok.cache hlen]
  split
  · intro e he
    obtain ⟨x, hx, rfl⟩ := List.mem_map.1 he
    exact List.mem_map_of_mem (List.mem_of_getLast? (Option.mem_toList.1 hx))
  · simp

/-- **Every run.** -/
theorem run_history {ok : ChunkCache → Chunk → Prop} (hfits : ∀ c chunk, ok c chunk → FitsCache c chunk)
    {c₀ : ChunkCache} (h₀ : CacheOK c₀ []) (hrun : CacheRun ok c₀ h c) :
    ∃ es, HistoryOK c h es ∧ c.maxMemoryUsage = c₀.maxMemoryUsage := by
  induction hrun with
  | new => exact ⟨[], ⟨h₀, rfl, trivial⟩, rfl⟩
  | get _ hg ih =>
    obtain ⟨es, hok, hm⟩ := ih
    obtain ⟨c', es', hg', hok', hm'⟩ := get_history hok _
    rw [hg] at hg'
    obtain ⟨rfl, rfl⟩ := Prod.mk.inj (Option.some.inj hg')
    exact ⟨es', hok', hm'.trans hm⟩
  | add _ hallow hadd ih =>
    obtain ⟨es, hok, hm⟩ := ih
    obtain ⟨c', es', hadd', hok', hm', -⟩ := add_history hok (hfits _ _ hallow)
    rw [hadd] at hadd'
    obtain rfl := Option.some.inj hadd'
    exact ⟨es', hok', hm'.trans hm⟩

/-- **The list of the cache** visits `nodes` and holds what the history leaves. -/
structure LruList (c : ChunkCache) (h : List (Event ℕ Chunk)) (nodes : List ℕ) : Prop where
  next : List.IsChain (fun p q => (c.heap p).map Node.next = some q)
    (c.dummyHead :: (nodes ++ [c.dummyTail]))
  prev : List.IsChain (fun p q => (c.heap p).map Node.prev = some q)
    (c.dummyTail :: (nodes.reverse ++ [c.dummyHead]))
  nodup : (c.dummyHead :: (nodes ++ [c.dummyTail])).Nodup
  values : ∀ p, p ∈ nodes ↔ ∃ id, c.map id = some p
  own : ∀ id p, c.map id = some p → (valAt c.heap p).map CacheEntry.chunkId = some id
  once : (nodes.map fun p => (valAt c.heap p).map CacheEntry.chunkId).Nodup
  order : nodes.map (valAt c.heap) = (contents h).map fun e => some ⟨e.1, some e.2⟩

theorem HistoryOK.lruList (hok : HistoryOK c h es) : LruList c h (es.map Slot.ptr) where
  next := hok.cache.linked.imp fun _ _ hl => hl.1
  prev := by
    have hl : List.IsChain (fun p q => (c.heap p).map Node.prev = some q) (ring c es).reverse :=
      List.isChain_reverse.2 (hok.cache.linked.imp fun _ _ hl => hl.2)
    simpa [ring] using hl
  nodup := hok.cache.nodup
  values := by
    intro p
    simp only [hok.cache.map, List.mem_map]
    constructor
    · rintro ⟨e, he, rfl⟩
      exact ⟨e.id, e, he, rfl, rfl⟩
    · rintro ⟨-, e, he, -, rfl⟩
      exact ⟨e, he, rfl⟩
  own := by
    intro id p hp
    obtain ⟨e, he, rfl, rfl⟩ := (hok.cache.map id p).1 hp
    rw [hok.cache.nodes e he]
    rfl
  once := by
    have hids : (es.map Slot.ptr).map (fun p => (valAt c.heap p).map CacheEntry.chunkId) =
        (es.map Slot.id).map some := by
      rw [List.map_map, List.map_map]
      refine List.map_congr_left fun e he => ?_
      simp only [Function.comp_apply, hok.cache.nodes e he, Option.map_some]
    rw [hids]
    exact hok.cache.ids.map fun _ _ => Option.some.inj
  order := by
    rw [← hok.contents, List.map_map, List.map_map]
    exact List.map_congr_left fun e he => hok.cache.nodes e he

/-- **`ChunkCache` is a least-recently-used map** for the caller that adds what it missed. After every
run the two chains visit the same nodes, which are those of the hash map, last used first; a
lookup returns what is held; every eviction took the last entry; and an insertion ends, freeing
no sentinel. -/
theorem chunkCache_lru {cacheSize : ℕ} (hmax : 2 ^ 20 ≤ (ChunkCache.new cacheSize).maxMemoryUsage)
    (hrun : CacheRun FitsCache (.new cacheSize) h c) :
    IsLru h ∧ (∀ id, ∃ c', c.get id = some (held id h, c')) ∧
      ∃ nodes, LruList c h nodes ∧ ∀ id chunk h', h = .got id none :: h' → FitsCache c chunk →
        (∃ c', c.add id chunk = some c') ∧ ∀ e ∈ c.evictions chunk.len c.fresh, e.1 ∈ nodes := by
  obtain ⟨es, hok, -⟩ := run_history (fun _ _ hf => hf) (cacheOK_new (by omega)) hrun
  refine ⟨hok.lru, fun id => ?_, es.map Slot.ptr, hok.lruList, ?_⟩
  · obtain ⟨c', -, hg, -⟩ := get_history hok id
    exact ⟨c', hg⟩
  · rintro id chunk h' rfl hlen
    obtain ⟨c', -, hadd, -, -, hnodes⟩ := add_history hok hlen
    exact ⟨⟨c', hadd⟩, hnodes⟩

/-- Three chunks of 400000 bytes in a cache of 1 MiB: the first is used again before the third comes,
so the third evicts the second. -/
theorem fetch_hit {a b d : Chunk} (ha : a.len = 400000) (hb : b.len = 400000) (hd : d.len = 400000) :
    ∃ c, CacheRun FitsCache (.new 1) [.added 3 d, .evicted 2, .got 3 none, .got 1 (some a), .added 2 b,
      .got 2 none, .added 1 a, .got 1 none] c := by
  have hmax : (ChunkCache.new 1).maxMemoryUsage = 1048576 := by decide
  have hcur : (ChunkCache.new 1).currentMemory = 0 := rfl
  have hrun₀ : CacheRun FitsCache (.new 1) [] (.new 1) := .new
  have hfit₁ : FitsCache (.new 1) a := by unfold FitsCache; omega
  obtain ⟨c₁, hrun₁, hmax₁, hc₁, hm₁⟩ := fetch_room hrun₀ (cacheOK_new (by omega)) 1 (by simp) hfit₁ hfit₁ (by omega)
  have hfit₂ : FitsCache c₁ b := by unfold FitsCache; omega
  obtain ⟨c₂, hrun₂, hmax₂, hc₂, hm₂⟩ := fetch_room hrun₁ hc₁ 2 (by simp) hfit₂ hfit₂ (by omega)
  -- the lookup that hits moves the first chunk in front of the second
  have hmiddle : CacheOK c₂ ([⟨c₁.fresh, 2, b⟩] ++ ⟨(ChunkCache.new 1).fresh, 1, a⟩ :: []) := hc₂
  obtain ⟨c₃, hg₃, hc₃, hmax₃⟩ := get_hit hmiddle
  have hm₃ := get_memory hg₃
  have hlast : (⟨(ChunkCache.new 1).fresh, 1, a⟩ :: ([⟨c₁.fresh, 2, b⟩] ++ []) : List Slot) =
    [⟨(ChunkCache.new 1).fresh, 1, a⟩] ++ [⟨c₁.fresh, 2, b⟩] := rfl
  have hrun₃ : CacheRun FitsCache (.new 1) (.got 1 (some a) :: _) c₃ := .get hrun₂ hg₃
  have hfit₃ : FitsCache c₃ d := by unfold FitsCache; omega
  obtain ⟨c₄, hrun₄, -⟩ := fetch_full hrun₃ hc₃ hlast 3 (by simp) hfit₃ hfit₃ (by omega)
  exact ⟨c₄, hrun₄⟩

/-- Behind them, the second chunk is gone, and the first is found. -/
theorem chunkCache_lru_three : ∃ a b d c nodes c₁ c₂, CacheRun FitsCache (.new 1) [.added 3 d, .evicted 2, .got 3 none,
      .got 1 (some a), .added 2 b, .got 2 none, .added 1 a, .got 1 none] c ∧
    LruList c [.added 3 d, .evicted 2, .got 3 none, .got 1 (some a), .added 2 b, .got 2 none, .added 1 a,
      .got 1 none] nodes ∧
    nodes.map (valAt c.heap) = [some ⟨3, some d⟩, some ⟨1, some a⟩] ∧
    c.get 2 = some (none, c₁) ∧ c.get 1 = some (some a, c₂) := by
  obtain ⟨c, hrun⟩ := fetch_hit (a := ⟨List.replicate 400000 0, 0⟩) (b := ⟨List.replicate 400000 1, 1⟩)
    (d := ⟨List.replicate 400000 2, 2⟩) List.length_replicate List.length_replicate List.length_replicate
  obtain ⟨-, hget, nodes, hl, -⟩ := chunkCache_lru (by decide) hrun
  obtain ⟨c₁, hg₁⟩ := hget 2
  obtain ⟨c₂, hg₂⟩ := hget 1
  exact ⟨_, _, _, c, nodes, c₁, c₂, hrun, hl, hl.order, hg₁, hg₂⟩

end ChunkGrouping
