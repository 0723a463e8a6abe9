import ChunkGrouping.Proof.FastAppend
import ChunkGrouping.Proof.GearWindow

/-!
# `FastCDC` falls into step

Two files with a common rest, chunked before it in whatever way: where both cut at one place of
the rest, their chunks are the same from there on. With a mask of `k` ones and a minimum of at
least `k` bytes, the cut test is about the last `k` bytes, wherever the chunk starts. So the first
place behind both minima that passes it is such a place, unless the maximum comes first.

* `stopAt_iff`: the cut test in the middle of a file.
* `cut_of_stopAt`: the next chunk ends at the first place that passes.
* `fast_resync`: two files.
-/

namespace ChunkGrouping

open Cutting RollingHash

variable {min max k : ℕ} {mask : UInt64} {w : List UInt8} {a i p : ℕ}

/-! ## The cut test in a file -/

/-- The `k` bytes before position `i` pass the cut test for `k` ones. -/
def StopAt (k : ℕ) (w : List UInt8) (i : ℕ) : Prop := fastStop (.ofNat (2 ^ k - 1)) ((w.take i).rtake k) k

instance (k : ℕ) (w : List UInt8) (i : ℕ) : Decidable (StopAt k w i) :=
  inferInstanceAs (Decidable (fastStop (.ofNat (2 ^ k - 1)) ((w.take i).rtake k) k))

/-- **Wherever the chunk starts**, as long as it has `k` bytes. -/
theorem stopAt_iff (hk : k ≤ 64) (ha : a + k ≤ i) (hi : i ≤ w.length) :
    fastStop (.ofNat (2 ^ k - 1)) (w.drop a) (i - a) ↔ StopAt k w i := by
  have hi' : (w.take i).length = i := by rw [List.length_take, Nat.min_eq_left hi]
  have hlen : ((w.take i).rtake k).length = k := by
    rw [List.rtake, List.length_drop]
    omega
  refine fastStop_congr hk (by rw [List.length_take, hlen, Nat.min_self]) ?_
  rw [List.take_of_length_le hlen.le, ← List.drop_take, rtake_drop (by omega), List.rtake, List.rtake, List.length_drop,
    hi', Nat.sub_sub_self (by omega), Nat.sub_self, List.drop_zero]

/-- **The next chunk** ends at the first place behind the minimum that passes the test, if that is within the
maximum. -/
theorem cut_of_stopAt (hk : k ≤ 64) (hkmin : k ≤ min) (hlt : a + min < p) (hmax : p ≤ a + max) (hp : p ≤ w.length)
    (hstop : StopAt k w p) (hno : ∀ i, a + min < i → i < p → ¬ StopAt k w i) :
    FastCut min max (.ofNat (2 ^ k - 1)) (w.drop a) (p - a) := by
  refine .inr ⟨by rw [List.length_drop]; omega, .inl (.inl ⟨by omega, by omega, ?_, fun i hi hip hs => ?_⟩)⟩
  · exact (stopAt_iff hk (by omega) hp).2 hstop
  · have hi' : a + i - a = i := Nat.add_sub_cancel_left a i
    refine hno (a + i) (by omega) (by omega) ((stopAt_iff (a := a) hk (by omega) (by omega)).1 ?_)
    rwa [hi']

/-! ## Two files -/

/-- **`FastCDC` falls into step.** Two files with a common rest `w` are cut at `a` and at `b` in it, `a` first, with a
mask of `k` ones and a minimum of at least `k`. If the first place behind `a` and the minimum that passes the cut test is
behind `b` and the minimum too, and within the maximum from `a`, then both are cut there, and all their chunks
behind are the same. -/
theorem fast_resync (hmin : 1 ≤ min) (hmm : min ≤ max) (hmax : max < 2 ^ 31 - 1) (hk : k ≤ 64) (hkmin : k ≤ min)
    (u v w : List UInt8) :
    ∃ cx sx cy sy, drainFile (some (u ++ w)) (FastCDC.new min max (.ofNat (2 ^ k - 1))) = some (cx, sx) ∧
      drainFile (some (v ++ w)) (FastCDC.new min max (.ofNat (2 ^ k - 1))) = some (cy, sy) ∧
      ∀ a b p i j, ((cx.take i).map Chunk.buf).flatten = u ++ w.take a →
        ((cy.take j).map Chunk.buf).flatten = v ++ w.take b → a ≤ b → b + min < p → p ≤ a + max → p ≤ w.length →
        StopAt k w p → (∀ n, a + min < n → n < p → ¬ StopAt k w n) →
        ∃ qx qy ts, cx.map Chunk.buf = qx ++ ts ∧ cy.map Chunk.buf = qy ++ ts ∧ qx.flatten = u ++ w.take p ∧
          qy.flatten = v ++ w.take p := by
  obtain ⟨cx, sx, hdx, hx⟩ := drainFile_new (hmin.trans hmm) hmm hmax (.ofNat (2 ^ k - 1)) (u ++ w)
  obtain ⟨cy, sy, hdy, hy⟩ := drainFile_new (hmin.trans hmm) hmm hmax (.ofNat (2 ^ k - 1)) (v ++ w)
  refine ⟨cx, sx, cy, sy, hdx, hdy, fun a b p i j hi hj hab hlt hle hp hstop hno => ?_⟩
  have hcx := cutAt_of_take hx i (by rw [← List.map_take]; exact hi) (show a ≤ w.length by omega)
  have hcy := cutAt_of_take hy j (by rw [← List.map_take]; exact hj) (show b ≤ w.length by omega)
  refine CutAt.agree FastCut.functional (hcx.next (by omega) hp ?_) (hcy.next (by omega) hp ?_) hx final_nil hy final_nil
  · exact cut_of_stopAt hk hkmin (by omega) hle hp hstop hno
  · exact cut_of_stopAt hk hkmin hlt (by omega) hp hstop fun n hn => hno n (by omega)

/-- Three bytes before a file: the first chunks end one place apart, the second ones at one place. -/
theorem fast_resync_three : ∃ cx sx cy sy,
    drainFile (some [50, 61, 62, 1, 2, 3, 4, 5, 6, 7, 8, 9, 10, 11, 12, 13]) (FastCDC.new 2 8 3) = some (cx, sx) ∧
      drainFile (some [1, 2, 3, 4, 5, 6, 7, 8, 9, 10, 11, 12, 13]) (FastCDC.new 2 8 3) = some (cy, sy) ∧
      ∃ qx qy ts, cx.map Chunk.buf = qx ++ ts ∧ cy.map Chunk.buf = qy ++ ts ∧
        qx.flatten = [50, 61, 62, 1, 2, 3, 4, 5, 6, 7, 8, 9, 10, 11] ∧
        qy.flatten = [1, 2, 3, 4, 5, 6, 7, 8, 9, 10, 11] := by
  obtain ⟨cx, sx, cy, sy, hx, hy, h⟩ := fast_resync (by decide : 1 ≤ 2) (by decide : 2 ≤ 8) (by decide)
    (by decide : 2 ≤ 64) le_rfl [50, 61, 62] [] [1, 2, 3, 4, 5, 6, 7, 8, 9, 10, 11, 12, 13]
  have hcx : (drainFile (some [50, 61, 62, 1, 2, 3, 4, 5, 6, 7, 8, 9, 10, 11, 12, 13]) (FastCDC.new 2 8 3)).map
      (fun r => ((r.1.take 1).map Chunk.buf).flatten) = some [50, 61, 62, 1, 2, 3, 4, 5] := by decide +kernel
  have hcy : (drainFile (some [1, 2, 3, 4, 5, 6, 7, 8, 9, 10, 11, 12, 13]) (FastCDC.new 2 8 3)).map
      (fun r => ((r.1.take 1).map Chunk.buf).flatten) = some [1, 2, 3, 4, 5, 6] := by decide +kernel
  rw [show drainFile (some [50, 61, 62, 1, 2, 3, 4, 5, 6, 7, 8, 9, 10, 11, 12, 13]) (FastCDC.new 2 8 3) =
    some (cx, sx) from hx] at hcx
  rw [show drainFile (some [1, 2, 3, 4, 5, 6, 7, 8, 9, 10, 11, 12, 13]) (FastCDC.new 2 8 3) = some (cy, sy) from hy] at hcy
  have hno : ∀ n < 11, 5 + 2 < n → ¬ StopAt 2 [1, 2, 3, 4, 5, 6, 7, 8, 9, 10, 11, 12, 13] n := by decide +kernel
  exact ⟨cx, sx, cy, sy, hx, hy, h 5 6 11 1 1 (Option.some.inj hcx) (Option.some.inj hcy) (by decide) (by decide)
    (by decide) (by decide) (by decide +kernel) fun n hn hlt => hno n hlt hn⟩

end ChunkGrouping
