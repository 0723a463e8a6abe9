import ChunkGrouping.Proof.AddFile
import ChunkGrouping.Proof.Stages

/-!
# The size field

A record has 16 bits for the length of its chunk. A longer chunk is written whole, and
reads as its first `len % 65536` bytes.

* `runOps_writes`: the store after writes of chunks of any lengths.
* `stored_iff`: a chunk is stored exactly when its length fits.
* `stored_size_iff`: for every chunk of `FastCDC`.
-/

namespace ChunkGrouping

variable {s : Storage} {rs : List Record}

/-- The call writes a chunk. -/
def StoreOp.WritesChunk : StoreOp → Prop
  | writeBase _ | writeDelta _ _ => True
  | _ => False

/-- **Writes** leave a record each. -/
theorem runOps_writes (codec : Codec) (ops : List StoreOp) : ∀ {s : Storage} {rs : List Record}, StoreOK s rs →
    (∀ op ∈ ops, op.WritesChunk) → s.dataFile.bytes.length + (logBytes (written ops)).length < 2 ^ 64 →
    ∃ s' us, runOps codec ops s = some s' ∧ StoreOK s' (rs ++ us) ∧ us.length = ops.length ∧
      s'.dataFile.bytes = s.dataFile.bytes ++ logBytes (written ops) := by
  induction ops with
  | nil => intro s rs h _ _; exact ⟨s, [], rfl, by simpa using h, rfl, by simp [logBytes, written]⟩
  | cons op ops ih =>
    intro s rs h hops hbytes
    obtain ⟨type, b, chunk, s₁, hrun, rfl, hw⟩ : ∃ type b chunk s₁, op.run codec s = some s₁ ∧
        s₁ = s.writeChunk type b chunk ∧ op.written = [⟨type, b, chunk.buf⟩] := by
      have hop := hops op List.mem_cons_self
      cases op with
      | writeBase chunk => exact ⟨BaseChunk, chunk.id, chunk, _, rfl, rfl, rfl⟩
      | writeDelta chunk b => exact ⟨DeltaChunk, b, chunk, _, rfl, rfl, rfl⟩
      | _ => exact hop.elim
    have hlog : logBytes (written (op :: ops)) = chunk.buf ++ logBytes (written ops) := by
      simp [logBytes, written, hw]
    rw [hlog, List.length_append] at hbytes
    obtain ⟨h₁, hd₁, -⟩ := writeChunk_stored h type b chunk (by omega)
    obtain ⟨s₂, us, h₂, hs₂, hl, hd₂⟩ := ih h₁ (fun op hop => hops op (List.mem_cons_of_mem _ hop))
      (by rw [hd₁, List.length_append]; omega)
    refine ⟨s₂, _ :: us, ?_, by simpa using hs₂, by simp [hl], ?_⟩
    · unfold runOps at h₂ ⊢
      rw [List.foldlM_cons, hrun]
      exact h₂
    · rw [hd₂, hd₁, hlog, List.append_assoc]

/-- **Chunk `c` is stored as record `n`**: with its length, so that `GetChunkContent` and `dividByBase`
return all of its bytes. -/
structure Stored (s : Storage) (n : ℕ) (c : Chunk) : Prop where
  size : (readRecord s (n * sizeofChunkMeta)).map (fun m => m.size.toNat) = some c.len
  content : s.getChunkContent n = some (⟨c.buf, n⟩, s)
  divided : ∀ (codec : Codec) (t : Totals), ∃ g t', s.dividByBase codec t = some (g, t', s) ∧
    ∀ m, readRecord s (n * sizeofChunkMeta) = some m → m.type = DeltaChunk →
      ∃ ds d, g[m.baseChunkId.toNat]? = some (ds ++ [d]) ∧ d.buf = c.buf

/-- The record just written has the low 16 bits of the length. -/
theorem size_written (h : StoreOK s rs) (hdata : s.dataFile.bytes.length < 2 ^ 64) (type : UInt8) (b : ℕ)
    (c : Chunk) : (readRecord (s.writeChunk type b c) (rs.length * sizeofChunkMeta)).map
      (fun m => m.size.toNat) = some (c.len % 2 ^ 16) := by
  obtain ⟨h', -, -⟩ := writeChunk_stored h type b c hdata
  set r := recordAt s.dataFile.bytes.length type b (stored c.buf)
  have hread := h'.records.readRecord (k := rs.length) (m := r.info) (by simp)
  rw [hread, Option.map_some, ← h'.size r (by simp)]
  exact congrArg some (length_stored c.buf)

/-- **Exactly when its length fits** the size field. -/
theorem stored_iff (h : StoreOK s rs) (hdata : s.dataFile.bytes.length < 2 ^ 64) (type : UInt8) (b : ℕ)
    (c : Chunk) : Stored (s.writeChunk type b c) rs.length c ↔ c.len ≤ 65535 := by
  have hsize := size_written h hdata type b c
  constructor
  · intro hst
    have := hst.size
    rw [hsize, Option.some.injEq] at this
    omega
  · intro hlen
    obtain ⟨h', -, -⟩ := writeChunk_stored h type b c hdata
    set r := recordAt s.dataFile.bytes.length type b (stored c.buf)
    set s' := s.writeChunk type b c
    have hlast : (rs ++ [r])[rs.length]? = some r := by simp
    have hbytes : r.bytes = c.buf := stored_eq (show c.buf.length < 2 ^ 16 from by unfold Chunk.len at hlen; omega)
    refine ⟨?_, ?_, fun codec t => ⟨_, _, dividByBase_ok codec h' t, fun m hm ht => ?_⟩⟩
    · rw [hsize, Nat.mod_eq_of_lt (by omega)]
    · rw [getChunkContent_ok h' hlast, hbytes]
    · have hread : readRecord s' (rs.length * sizeofChunkMeta) = some r.info :=
        h'.records.readRecord (by rw [List.getElem?_map, hlast]; rfl)
      rw [hread] at hm
      obtain rfl := Option.some.inj hm
      refine ⟨deltasOf r.info.baseChunkId.toNat rs, r.chunk, ?_, hbytes⟩
      rw [getElem?_groupsOf, if_pos ⟨r, by simp, .inr ht, rfl⟩]
      unfold deltasOf
      rw [List.filter_append, List.map_append]
      simp [ht]

/-- A file of just one block is one chunk. -/
theorem chunk_of_block {n : ℕ} {mask : UInt64} {bytes : List UInt8} {cs : List Chunk} (hn : bytes.length = n)
    (hpos : 0 < n) (h : FastFileOK n n mask (some bytes) cs) : ∃ c, cs = [c] ∧ c.len = n := by
  have hl : (cs.map Chunk.len).sum = n := by
    have := congrArg List.length h.bytes
    rwa [MappedFile.open_some, hn, List.length_flatten, List.map_map] at this
  rcases cs with _ | ⟨c, cs⟩
  · simp at hl
    omega
  · rcases cs with _ | ⟨c', cs⟩
    · exact ⟨c, rfl, by simpa using hl⟩
    · have hc := (h.boundary c (by simp)).1
      have hc' := h.pos c' (by simp)
      simp only [List.map_cons, List.sum_cons] at hl
      omega

/-- **The stored size is the chunk's length exactly when that is at most 65535.** Whatever was written
before, and whatever `FastCDC` cut the chunk from. -/
theorem stored_size_iff (codec : Codec) {min max : ℕ} (hmin : 1 ≤ min) (hmm : min ≤ max)
    (hmax : max < 2 ^ 31 - 1) (mask : UInt64) (files : List FileContent) (cacheSize : ℕ) (ops : List StoreOp)
    (hops : ∀ op ∈ ops, op.WritesChunk) (hbytes : (logBytes (written ops)).length < 2 ^ 64) :
    ∃ css k s, drainFiles files (FastCDC.new min max mask) = some (css, k) ∧
      runOps codec ops (.new cacheSize) = some s ∧ ∀ c ∈ css.flatten,
        (Stored (s.writeBaseChunk c) ops.length c ↔ c.len ≤ 65535) ∧
        ∀ b, Stored (s.writeDeltaChunk c b).2 ops.length c ↔ c.len ≤ 65535 := by
  obtain ⟨css, k, hd, -, -⟩ :=
    drainFiles_fast (hmin.trans hmm) hmm hmax files (.new min max mask) (FastOK.new min max mask) rfl
  obtain ⟨s, us, hs, hok, hl, hdata⟩ := runOps_writes codec ops (storeOK_new cacheSize) hops
    (by simpa [Storage.new] using hbytes)
  rw [List.nil_append] at hok
  have hlt : s.dataFile.bytes.length < 2 ^ 64 := by
    rw [hdata]
    simpa [Storage.new] using hbytes
  refine ⟨css, k, s, hd, hs, fun c _ => ?_⟩
  rw [← hl]
  exact ⟨stored_iff hok hlt BaseChunk c.id c, fun b => stored_iff hok hlt DeltaChunk b c⟩

theorem stored_size_iff_one : ∃ css k s,
    drainFiles [some [1]] (FastCDC.new 1 1 0) = some (css, k) ∧
      runOps ⟨List.length, List.length, List.length⟩ [.writeBase ⟨[7], 0⟩] (.new 1) = some s ∧
      ∀ c ∈ css.flatten, Stored (s.writeBaseChunk c) 1 c ∧ ∀ b, Stored (s.writeDeltaChunk c b).2 1 c := by
  obtain ⟨css, k, s, hd, hs, hiff⟩ := stored_size_iff ⟨List.length, List.length, List.length⟩ le_rfl le_rfl
    (by decide : 1 < 2 ^ 31 - 1) 0 [some [1]] 1 [.writeBase ⟨[7], 0⟩] (by simp [StoreOp.WritesChunk]) (by decide)
  have hcss : (drainFiles [some [1]] (FastCDC.new 1 1 0)).map Prod.fst = some [[⟨[1], 0⟩]] := by decide +kernel
  rw [hd] at hcss
  obtain rfl : css = [[⟨[1], 0⟩]] := Option.some.inj hcss
  refine ⟨_, k, s, hd, hs, fun c hc => ?_⟩
  have hlen : c.len ≤ 65535 := by
    rw [List.mem_singleton.1 hc]
    decide
  exact ⟨(hiff c hc).1.2 hlen, fun b => ((hiff c hc).2 b).2 hlen⟩

/-- A file of 65536 zeros, cut into blocks of that size: its chunk is written with size 0. -/
theorem stored_size_zero : ∃ k c,
    drainFiles [some (List.replicate 65536 0)] (FastCDC.new 65536 65536 0) = some ([[c]], k) ∧
      c.len = 65536 ∧
      (readRecord ((Storage.new 1).writeBaseChunk c) 0).map (fun m => m.size.toNat) = some 0 ∧
      ¬ Stored ((Storage.new 1).writeBaseChunk c) 0 c := by
  obtain ⟨css, k, hd, hok, -⟩ := drainFiles_fast (by omega) le_rfl (by omega : 65536 < 2 ^ 31 - 1)
    [some (List.replicate 65536 0)] (.new 65536 65536 0) (FastOK.new _ _ _) rfl
  obtain ⟨cs, rest, hcs, hnil, rfl⟩ := List.forall₂_cons_left_iff.1 hok
  obtain rfl := List.forall₂_nil_left_iff.1 hnil
  obtain ⟨c, rfl, hlen⟩ := chunk_of_block List.length_replicate (by omega) hcs
  refine ⟨k, c, hd, hlen, ?_, fun h => ?_⟩
  · have := size_written (storeOK_new 1) (by decide) BaseChunk c.id c
    rwa [hlen] at this
  · have := (stored_iff (storeOK_new 1) (by decide) BaseChunk c.id c).1 h
    omega

end ChunkGrouping
