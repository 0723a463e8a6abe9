import ChunkGrouping.Lib.RollingHash
import ChunkGrouping.Proof.RabinHash

/-!
# `RabinCDC` falls into step

The window is reset at every cut, but a chunk tests for a cut only behind its minimum. With a
minimum of at least 48 bytes the reset is forgotten by then: the test is about the remainder
of the last 48 bytes, wherever the chunk starts. So two files with a common rest are cut at one
place of it like with `FastCDC`, and have their chunks from there on, and the bytes that are
in none.

* `digest_eq_windowHash`: the digest in the middle of a file.
* `cut_of_rabinStopAt`: the next chunk ends at the first place that passes.
* `drainFile_rabin_final`: the chunks of a file, until no more can be cut off.
* `rabin_resync`: two files.
-/

namespace ChunkGrouping

open BinaryPoly Cutting RollingHash

variable {min max : ℕ} {mask : UInt64} {w : List UInt8} {a i p : ℕ}

/-! ## The cut test in a file -/

/-- The remainder of the 48 bytes before position `i`. -/
def windowHash (w : List UInt8) (i : ℕ) : ℕ := rem polynomial.toNat (bytesNum ((w.take i).rtake WINSIZE))

/-- They pass the cut test. -/
def RabinStopAt (mask : UInt64) (w : List UInt8) (i : ℕ) : Prop := UInt64.ofNat (windowHash w i) &&& mask = 0

instance (mask : UInt64) (w : List UInt8) (i : ℕ) : Decidable (RabinStopAt mask w i) :=
  inferInstanceAs (Decidable (UInt64.ofNat (windowHash w i) &&& mask = 0))

/-- **Wherever the chunk starts**, as long as it has 48 bytes. -/
theorem digest_eq_windowHash (ha : a + WINSIZE ≤ i) (hi : i ≤ w.length) :
    (rabinDigest ((w.drop a).take (i - a))).digest = UInt64.ofNat (windowHash w i) := by
  have hlen : a + WINSIZE ≤ (w.take i).length := by rw [List.length_take, Nat.min_eq_left hi]; exact ha
  -- neither the reset nor what is before the chunk is in the window
  have hreset : (rabinInput ((w.drop a).take (i - a))).rtake WINSIZE = ((w.take i).drop a).rtake WINSIZE := by
    have hsplit : rabinInput ((w.take i).drop a) = (List.replicate WINSIZE 0 ++ [1]) ++ (w.take i).drop a := by
      unfold rabinInput
      rw [List.append_assoc, List.singleton_append]
    rw [← List.drop_take, hsplit, ← rtake_drop (a := (List.replicate WINSIZE (0 : UInt8) ++ [1]).length), List.drop_left]
    simp only [List.length_append, List.length_drop]
    omega
  have hwindow : directHash ((w.drop a).take (i - a)) = windowHash w i := by
    rw [windowHash, ← rtake_drop hlen, ← hreset]
    rfl
  rw [← hwindow, ← rabinDigest_eq, UInt64.ofNat_toNat]

/-- **The next chunk** ends at the first place behind the minimum that passes the test, if that is within the
maximum. -/
theorem cut_of_rabinStopAt (hmin : 1 ≤ min) (hwin : WINSIZE ≤ min) (hle : a + min ≤ p) (hmax : p ≤ a + max)
    (hp : p ≤ w.length) (hstop : RabinStopAt mask w p) (hno : ∀ i, a + min ≤ i → i < p → ¬ RabinStopAt mask w i) :
    RabinPiece min max mask (w.drop a) (p - a) := by
  have hlen : (w.drop a).length = w.length - a := List.length_drop
  by_cases hshort : (w.drop a).length ≤ min
  · exact .inl ⟨hshort, by omega⟩
  · refine .inr ⟨by omega, by omega, by omega, .inl ⟨by omega, ?_⟩, fun i hi hip hs => ?_⟩
    · rw [digest_eq_windowHash (by omega) hp]
      exact hstop
    · rcases hs with ⟨hmini, hs⟩ | hmaxi
      · have hi' : a + i - a = i := Nat.add_sub_cancel_left a i
        rw [← hi', digest_eq_windowHash (by omega) (by omega)] at hs
        exact hno (a + i) (by omega) (by omega) hs
      · omega

/-! ## The chunks of a file -/

/-- **The drain of a file**, with chunks that fit an `int`: its chunks are cut by the rule until no more can be. -/
theorem drainFile_rabin_final (hmin : 1 ≤ min) (hmm : min ≤ max) (hmax : max < 2 ^ 31) (mask : UInt64) (junk : RabinWindow)
    (content : List UInt8) :
    ∃ cs s r, drainFile (some content) (RabinCDC.new min max mask junk) = some (cs, s) ∧
      Chop (RabinPiece min max mask) content (cs.map Chunk.buf) r ∧ Final (RabinPiece min max mask) r := by
  obtain ⟨cs, s, ps, r, hd, hchop, hbytes, hr⟩ := drainFile_rabin min max mask junk content
  have hle : ∀ p ∈ ps, p.length ≤ max := hchop.forall_of fun l n _ hn hP => by
    rw [List.length_take, Nat.min_eq_left hn]
    exact hP.le_max hmin hmm
  rw [map_shown_eq fun p hp => (hle p hp).trans_lt hmax] at hbytes
  refine ⟨cs, s, r, hd, hbytes ▸ hchop, ?_⟩
  rcases hr with rfl | ⟨hlong, hno⟩
  · exact final_nil
  · intro n hpos hn hP
    rcases hP with ⟨hshort, -⟩ | hcut
    · omega
    · exact hno n hpos hn hcut.2.2.2.1

/-- **The first chunk.** -/
theorem drainFile_rabin_first {l : List UInt8} {n : ℕ} (hmin : 1 ≤ min) (hmm : min ≤ max) (hmax : max < 2 ^ 31)
    (hpos : 0 < n) (hn : n ≤ l.length) (hcut : RabinPiece min max mask l n) {junk : RabinWindow} {cs : List Chunk}
    {s : RabinCDC} (hd : drainFile (some l) (RabinCDC.new min max mask junk) = some (cs, s)) :
    ((cs.take 1).map Chunk.buf).flatten = l.take n := by
  obtain ⟨cs', s', r, hd', hchop, hr⟩ := drainFile_rabin_final hmin hmm hmax mask junk l
  obtain ⟨rfl, -⟩ := Prod.mk.inj (Option.some.inj (hd.symm.trans hd'))
  obtain ⟨ts, hts, -⟩ := (Chop.cut hpos hn hcut (.done _)).prefix_of_final RabinPiece.functional hchop hr
  rw [List.map_take, hts]
  exact List.append_nil _

/-! ## Two files -/

/-- **`RabinCDC` falls into step.** Two files with a common rest `w` are cut at `a` and at `b` in it, `a` first, with any
mask and a minimum of at least 48 bytes. If the first place from `a` and the minimum on that passes the cut test is not
before `b` and the minimum, and within the maximum from `a`, then both are cut there, and all their chunks behind are
the same. -/
theorem rabin_resync (hwin : WINSIZE ≤ min) (hmm : min ≤ max) (hmax : max < 2 ^ 31) (mask : UInt64)
    (junk junk' : RabinWindow) (u v w : List UInt8) :
    ∃ cx sx cy sy, drainFile (some (u ++ w)) (RabinCDC.new min max mask junk) = some (cx, sx) ∧
      drainFile (some (v ++ w)) (RabinCDC.new min max mask junk') = some (cy, sy) ∧
      ∀ a b p i j, ((cx.take i).map Chunk.buf).flatten = u ++ w.take a →
        ((cy.take j).map Chunk.buf).flatten = v ++ w.take b → a ≤ b → b + min ≤ p → p ≤ a + max → p ≤ w.length →
        RabinStopAt mask w p → (∀ n, a + min ≤ n → n < p → ¬ RabinStopAt mask w n) →
        ∃ qx qy ts, cx.map Chunk.buf = qx ++ ts ∧ cy.map Chunk.buf = qy ++ ts ∧ qx.flatten = u ++ w.take p ∧
          qy.flatten = v ++ w.take p := by
  have hmin : 1 ≤ min := le_trans (by decide) hwin
  obtain ⟨cx, sx, rx, hdx, hx, hrx⟩ := drainFile_rabin_final hmin hmm hmax mask junk (u ++ w)
  obtain ⟨cy, sy, ry, hdy, hy, hry⟩ := drainFile_rabin_final hmin hmm hmax mask junk' (v ++ w)
  refine ⟨cx, sx, cy, sy, hdx, hdy, fun a b p i j hi hj hab hle hpmax hp hstop hno => ?_⟩
  have hcx := cutAt_of_take hx i (by rw [← List.map_take]; exact hi) (show a ≤ w.length by omega)
  have hcy := cutAt_of_take hy j (by rw [← List.map_take]; exact hj) (show b ≤ w.length by omega)
  refine CutAt.agree RabinPiece.functional (hcx.next (by omega) hp ?_) (hcy.next (by omega) hp ?_) hx hrx hy hry
  · exact cut_of_rabinStopAt hmin hwin (by omega) hpmax hp hstop hno
  · exact cut_of_rabinStopAt hmin hwin hle (by omega) hp hstop fun n hn => hno n (by omega)

/-- A byte before a file: the first chunks end one place apart, the second ones at one place. -/
theorem rabin_resync_byte : ∃ cx sx cy sy,
    drainFile (some (6 :: (List.replicate 47 0 ++ 2 :: List.replicate 49 0))) (RabinCDC.new 48 60 1 ⟨[], 0, 0⟩) =
      some (cx, sx) ∧
    drainFile (some (List.replicate 47 0 ++ 2 :: List.replicate 49 0)) (RabinCDC.new 48 60 1 ⟨[], 0, 0⟩) = some (cy, sy) ∧
    ∃ qx qy ts, cx.map Chunk.buf = qx ++ ts ∧ cy.map Chunk.buf = qy ++ ts ∧
      qx.flatten = 6 :: (List.replicate 47 0 ++ 2 :: List.replicate 48 0) ∧
      qy.flatten = List.replicate 47 0 ++ 2 :: List.replicate 48 0 := by
  obtain ⟨cx, sx, cy, sy, hx, hy, h⟩ := rabin_resync (le_refl WINSIZE) (by decide : WINSIZE ≤ 60) (by decide) 1 ⟨[], 0, 0⟩
    ⟨[], 0, 0⟩ [6] [] (List.replicate 47 0 ++ 2 :: List.replicate 49 0)
  have hfirst : ∀ l : List UInt8, WINSIZE ≤ l.length → RabinStopAt 1 l 48 → RabinPiece WINSIZE 60 1 l 48 :=
    fun l hl hs => cut_of_rabinStopAt (a := 0) (by decide) le_rfl le_rfl (by decide) hl hs fun n hn hlt =>
      absurd (hn.trans_lt hlt) (by decide)
  have hcx := drainFile_rabin_first (by decide) (by decide) (by decide) (by decide) (by decide)
    (hfirst _ (by decide) (by decide +kernel)) hx
  have hcy := drainFile_rabin_first (by decide) (by decide) (by decide) (by decide) (by decide)
    (hfirst _ (by decide) (by decide +kernel)) hy
  -- of the places from 95 on the first does not pass the test, the second does
  refine ⟨cx, sx, cy, sy, hx, hy, h 47 48 96 1 1 hcx hcy (by decide) (by decide) (by decide) (by decide)
    (by decide +kernel) fun n hn hlt => ?_⟩
  obtain rfl : n = 95 := by
    unfold WINSIZE at hn
    omega
  decide +kernel

end ChunkGrouping
