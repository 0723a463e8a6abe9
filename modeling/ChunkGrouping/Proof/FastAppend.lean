import ChunkGrouping.Proof.FastCDC

/-!
# `FastCDC` and bytes behind

Whether the next chunk ends at a position is read off the bytes up to there, unless the file
ends there. So with more bytes behind it a file is cut alike up to its last chunk. If that one
ends at a cut position too, what is behind is cut like a file of its own.

* `FastCut.functional`: the rule leaves no choice.
* `FastCut.append`, `FastCut.append_all`: a cut with more bytes behind.
* `fast_append`: the chunks of `x ++ y`.
-/

namespace ChunkGrouping

open Cutting

variable {min max : ℕ} {mask : UInt64} {l : List UInt8} {n : ℕ}

theorem fastStop_append (y : List UInt8) (h : n ≤ l.length) : fastStop mask (l ++ y) n ↔ fastStop mask l n := by
  unfold fastStop
  rw [List.take_append_of_le_length h]

/-- **The cut is the first way to end a chunk**: the end of the file, the maximum, or a stop behind `min`. -/
theorem FastCut.isLeast (hlong : min < l.length) (hn : n ≤ l.length) (h : FastCut min max mask l n) :
    IsLeast {i | l.length ≤ i ∨ max ≤ i ∨ (min < i ∧ fastStop mask l i)} n := by
  rcases h with ⟨hshort, -⟩ | ⟨-, (⟨hlt, hle, hstop, hno⟩ | ⟨rfl, hno⟩) | ⟨rfl, hlt, hno⟩⟩
  · omega
  · refine ⟨.inr (.inr ⟨hlt, hstop⟩), fun i hi => ?_⟩
    rcases hi with hi | hi | ⟨hi, hs⟩
    · omega
    · omega
    · by_contra hearly
      exact hno i hi (by omega) hs
  · refine ⟨.inr (.inl le_rfl), fun i hi => ?_⟩
    rcases hi with hi | hi | ⟨hi, hs⟩
    · omega
    · exact hi
    · by_contra hearly
      exact hno i hi (by omega) hs
  · refine ⟨.inl le_rfl, fun i hi => ?_⟩
    rcases hi with hi | hi | ⟨hi, hs⟩
    · exact hi
    · omega
    · by_contra hearly
      exact hno i hi (by omega) hs

/-- The rule leaves no choice. -/
theorem FastCut.functional (l : List UInt8) (n m : ℕ) (hn : n ≤ l.length) (hm : m ≤ l.length)
    (h : FastCut min max mask l n) (h' : FastCut min max mask l m) : n = m := by
  by_cases hlong : min < l.length
  · exact (h.isLeast hlong hn).unique (h'.isLeast hlong hm)
  · -- a short rest is one chunk
    have hall : ∀ {k}, FastCut min max mask l k → k = l.length := by
      rintro k (⟨-, rfl⟩ | ⟨hlt, -⟩)
      · rfl
      · exact absurd hlt hlong
    rw [hall h, hall h']

theorem FastBoundary.append (y : List UInt8) (hn : n ≤ l.length) (h : FastBoundary min max mask l n) :
    FastBoundary min max mask (l ++ y) n := by
  rcases h with ⟨hlt, hle, hstop, hno⟩ | ⟨rfl, hno⟩
  · refine .inl ⟨hlt, hle, (fastStop_append y hn).2 hstop, fun i hi hin hs => ?_⟩
    exact hno i hi hin ((fastStop_append y (by omega)).1 hs)
  · refine .inr ⟨rfl, fun i hi hin hs => ?_⟩
    exact hno i hi hin ((fastStop_append y (by omega)).1 hs)

/-- **A cut before the end of the file** stays with more bytes behind. -/
theorem FastCut.append (y : List UInt8) (hn : n < l.length) (h : FastCut min max mask l n) :
    FastCut min max mask (l ++ y) n := by
  have hlong : min < l.length := by
    rcases h with ⟨-, rfl⟩ | ⟨hlt, -⟩
    · omega
    · exact hlt
  exact .inr ⟨by rw [List.length_append]; omega, .inl ((h.boundary hn).append y hn.le)⟩

/-- The last chunk of a file ends where one with more bytes behind it would: at the maximum, or at a stop
behind `min`. -/
def EndsAtCut (min max : ℕ) (mask : UInt64) (chunk : List UInt8) : Prop :=
  chunk.length = max ∨ (min < chunk.length ∧ gearPrint chunk &&& mask = 0)

/-- **A cut at the end of the file** stays, if it would be one anyway. -/
theorem FastCut.append_all (hmm : min ≤ max) (y : List UInt8) (hend : EndsAtCut min max mask l)
    (h : FastCut min max mask l l.length) : FastCut min max mask (l ++ y) l.length := by
  by_cases hlong : min < l.length
  · have hbound : FastBoundary min max mask l l.length := by
      rcases h with ⟨hshort, -⟩ | ⟨-, hb | ⟨-, hlt, hno⟩⟩
      · omega
      · exact hb
      · -- the end of the file alone did not cut here
        have hstop := (hend.resolve_left hlt.ne).2
        rw [← List.take_length (l := l)] at hstop
        exact absurd hstop (hno _ hlong le_rfl)
    exact .inr ⟨by rw [List.length_append]; omega, .inl (hbound.append y le_rfl)⟩
  · -- the minimum is the maximum: with something behind, the loop that tests is empty
    have hmax : l.length = max := hend.resolve_right fun h => hlong h.1
    by_cases hall : (l ++ y).length ≤ min
    · refine .inl ⟨hall, ?_⟩
      rw [List.length_append] at hall ⊢
      omega
    · exact .inr ⟨by omega, .inl (.inr ⟨hmax, fun i hi him _ => by omega⟩)⟩

/-! ## The chunks of a file -/

/-- The chunks of a file, by a chunker that has drained nothing before. -/
theorem drainFile_new (hpos : 1 ≤ max) (hmm : min ≤ max) (hmax : max < 2 ^ 31 - 1) (mask : UInt64)
    (x : List UInt8) : ∃ cs s, drainFile (some x) (FastCDC.new min max mask) = some (cs, s) ∧
      Chop (FastCut min max mask) x (cs.map Chunk.buf) [] := by
  obtain ⟨cs, s, hd, hchop, -⟩ := drainFile_fast hpos hmm hmax (FastOK.new min max mask) rfl (some x)
  rw [MappedFile.open_some] at hchop
  exact ⟨cs, s, hd, hchop⟩

/-- Two chops of `x ++ y` and `x`: all pieces of `x` but the last are the first ones of `x ++ y`, and if the last
one ends at a cut, the others are those of `y`. -/
theorem chop_append (hmm : min ≤ max) {x y : List UInt8} {px py pxy : List (List UInt8)}
    (hx : Chop (FastCut min max mask) x px []) (hy : Chop (FastCut min max mask) y py [])
    (hxy : Chop (FastCut min max mask) (x ++ y) pxy []) :
    px.dropLast <+: pxy ∧ ∀ p, px.getLast? = some p → EndsAtCut min max mask p → pxy = px ++ py := by
  by_cases hne : px = []
  · subst hne
    exact ⟨List.nil_prefix, fun p hp => by cases hp⟩
  · obtain ⟨qs, q, rfl, hqs, hpos, hq⟩ := hx.last hne
    -- the cuts of `x` before its end are cuts of `x ++ y`
    have hlong : Chop (FastCut min max mask) (x ++ y) qs (q ++ y) :=
      hqs.append fun l n _ hn => hn.1.append y hn.2
    obtain ⟨ts, rfl, -⟩ := hlong.prefix_of FastCut.functional hxy
    refine ⟨by rw [List.dropLast_concat]; exact List.prefix_append _ _, fun p hp hend => ?_⟩
    rw [List.getLast?_concat, Option.some.injEq] at hp
    subst hp
    have hcut : FastCut min max mask (q ++ y) q.length := hq.append_all hmm y hend
    have hlast : Chop (FastCut min max mask) (q ++ y) [q] y := by
      have hone := Chop.cut hpos (by rw [List.length_append]; omega) hcut (.done _)
      rwa [List.take_left, List.drop_left] at hone
    obtain ⟨us, hus, hnil⟩ := ((hlong.trans hlast).trans hy).prefix_of FastCut.functional hxy
    rw [hus, hnil.of_nil.1, List.append_nil]

/-- **`FastCDC` boundaries are stable under appending.** All chunks of `x` but the last are the first ones of
`x ++ y`; and if the last one has the maximal length, or is longer than the minimum with its fingerprint at a
stop, the chunks of `x ++ y` are those of `x`, then those of `y`. -/
theorem fast_append (hmin : 1 ≤ min) (hmm : min ≤ max) (hmax : max < 2 ^ 31 - 1) (mask : UInt64)
    (x y : List UInt8) :
    ∃ cx sx cy sy cxy sxy, drainFile (some x) (FastCDC.new min max mask) = some (cx, sx) ∧
      drainFile (some y) (FastCDC.new min max mask) = some (cy, sy) ∧
      drainFile (some (x ++ y)) (FastCDC.new min max mask) = some (cxy, sxy) ∧
      (cx.map Chunk.buf).dropLast <+: cxy.map Chunk.buf ∧
      ∀ c, cx.getLast? = some c → (c.len = max ∨ (min < c.len ∧ gearPrint c.buf &&& mask = 0)) →
        cxy.map Chunk.buf = cx.map Chunk.buf ++ cy.map Chunk.buf := by
  obtain ⟨cx, sx, hdx, hx⟩ := drainFile_new (hmin.trans hmm) hmm hmax mask x
  obtain ⟨cy, sy, hdy, hy⟩ := drainFile_new (hmin.trans hmm) hmm hmax mask y
  obtain ⟨cxy, sxy, hdxy, hxy⟩ := drainFile_new (hmin.trans hmm) hmm hmax mask (x ++ y)
  obtain ⟨hstart, hall⟩ := chop_append hmm hx hy hxy
  refine ⟨cx, sx, cy, sy, cxy, sxy, hdx, hdy, hdxy, hstart, fun c hc hend => ?_⟩
  have hlast : (cx.map Chunk.buf).getLast? = some c.buf := by rw [List.getLast?_map, hc]; rfl
  exact hall c.buf hlast hend

/-- Chunks of two bytes: behind a full one the file goes on as if it began there. -/
theorem fast_append_two : ∃ cxy sxy,
    drainFile (some [1, 2, 3]) (FastCDC.new 2 2 0) = some (cxy, sxy) ∧ cxy.map Chunk.buf = [[1, 2], [3]] := by
  obtain ⟨cx, sx, cy, sy, cxy, sxy, hx, hy, hxy, -, hall⟩ :=
    fast_append (by decide : 1 ≤ 2) (le_refl 2) (by decide) 0 [1, 2] [3]
  have hcx : (drainFile (some [1, 2]) (FastCDC.new 2 2 0)).map Prod.fst = some [⟨[1, 2], 0⟩] := by decide +kernel
  have hcy : (drainFile (some [3]) (FastCDC.new 2 2 0)).map Prod.fst = some [⟨[3], 0⟩] := by decide +kernel
  rw [hx] at hcx
  rw [hy] at hcy
  obtain rfl := Option.some.inj hcx
  obtain rfl := Option.some.inj hcy
  exact ⟨cxy, sxy, hxy, hall _ rfl (.inl rfl)⟩

end ChunkGrouping
