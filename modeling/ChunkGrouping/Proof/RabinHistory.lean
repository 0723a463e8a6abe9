import ChunkGrouping.Proof.RabinHash

/-!
# Where `RabinCDC` cuts, after any calls

Whatever was called before: a call that returns a chunk finds the cursor in the file at hand
and the window reset. With a file that could not be mapped, or after a scan that ran off the
end, nothing is returned any more before the next `ReinitWithFile`.

* `RabinReady`: what every history of calls keeps.
* `rabin_cuts_direct`: the scanning loop cuts at the first position of the direct hash.
-/

namespace ChunkGrouping

open BinaryPoly

variable {min max : ℕ} {mask : UInt64}

/-- **Nothing is left, or the cursor is at the rest of the file and the window is reset, or it is at the end
of the mapping**, where every read is out of range. -/
structure RabinReady (min max : ℕ) (mask : UInt64) (s : RabinCDC) : Prop where
  min : s.minChunkSize = min
  max : s.maxChunkSize = max
  mask : s.rabinStopMask = mask
  cursor : s.remainingFileLen = 0 ∨
    (s.fileReadPtr + s.remainingFileLen = s.file.mapped.length ∧ s.win = .rabinReset) ∨
    s.file.mapped.length ≤ s.fileReadPtr

/-- At the end of the mapping a call that would return a chunk reads out of range. -/
theorem getNextChunk_off_end {s : RabinCDC} (hpos : s.remainingFileLen ≠ 0)
    (hend : s.file.mapped.length ≤ s.fileReadPtr) : s.getNextChunk = none := by
  unfold RabinCDC.getNextChunk
  rw [if_neg hpos]
  split
  · have hnone : Chunk.fromMemoryRef s.file.mapped s.fileReadPtr s.remainingFileLen s.nextChunkId = none :=
      if_neg (by omega)
    rw [hnone]
    rfl
  · obtain ⟨k, hk⟩ := Nat.exists_eq_succ_of_ne_zero hpos
    have hread : s.file.mapped[s.fileReadPtr]? = none := List.getElem?_eq_none hend
    rw [hk, RabinCDC.scanLoop]
    simp only [hread, Option.bind_eq_bind, Option.bind_none]

/-- **`ReinitWithFile`.** -/
theorem RabinReady.reinit {s : RabinCDC} (h : RabinReady min max mask s) (content : FileContent) :
    RabinReady min max mask (s.reinitWithFile content).2 := by
  by_cases hmap : (MappedFile.open content).mapSuccess = true
  · cases content with
    | none => cases hmap
    | some bytes =>
      rw [reinitWithFile_some (MappedFile.mapSuccess_some.1 hmap)]
      exact ⟨h.min, h.max, h.mask, .inr (.inl ⟨Nat.zero_add _, rfl⟩)⟩
  · -- no mapping: no byte of it can be read
    rw [reinitWithFile_failed (Bool.eq_false_of_not_eq_true hmap)]
    exact ⟨h.min, h.max, h.mask, .inr (.inr (Nat.zero_le _))⟩

/-- **`GetNextChunk`.** -/
theorem RabinReady.next {s s' : RabinCDC} (h : RabinReady min max mask s) {c : Option Chunk}
    (hn : s.getNextChunk = some (c, s')) : RabinReady min max mask s' := by
  by_cases hzero : s.remainingFileLen = 0
  · have hsame : s.getNextChunk = some (none, s) := if_pos hzero
    obtain ⟨-, rfl⟩ := Prod.mk.inj (Option.some.inj (hn.symm.trans hsame))
    exact h
  rcases h.cursor.resolve_left hzero with ⟨hcur, hwin⟩ | hend
  · by_cases hle : s.remainingFileLen ≤ s.minChunkSize
    · obtain ⟨-, rfl⟩ := Prod.mk.inj (Option.some.inj (hn.symm.trans (rabin_short hcur hzero hle)))
      exact ⟨h.min, h.max, h.mask, .inl rfl⟩
    · rcases rabin_scan hcur hwin (by omega) with ⟨m, hm, hmle, -, -, hget⟩ | ⟨-, win, hget⟩
      · obtain ⟨-, rfl⟩ := Prod.mk.inj (Option.some.inj (hn.symm.trans hget))
        exact ⟨h.min, h.max, h.mask, .inr (.inl ⟨by simp only; omega, rfl⟩)⟩
      · obtain ⟨-, rfl⟩ := Prod.mk.inj (Option.some.inj (hn.symm.trans hget))
        exact ⟨h.min, h.max, h.mask, .inr (.inr le_rfl)⟩
  · rw [getNextChunk_off_end hzero hend] at hn
    cases hn

theorem calls_reinit (content : FileContent) (history : List RabinCall) (s : RabinCDC) :
    s.calls (.reinit content :: history) = (s.reinitWithFile content).2.calls history := rfl

theorem calls_next {s s' : RabinCDC} {c : Option Chunk} (h : s.getNextChunk = some (c, s')) (history : List RabinCall) :
    s.calls (.next :: history) = s'.calls history := by
  have hcall : s.call .next = some s' := by
    unfold RabinCDC.call
    rw [h]
    rfl
  unfold RabinCDC.calls
  rw [List.foldlM_cons, hcall]
  rfl

/-- **A history.** -/
theorem RabinReady.calls (history : List RabinCall) : ∀ {s s' : RabinCDC}, RabinReady min max mask s →
    s.calls history = some s' → RabinReady min max mask s' := by
  induction history with
  | nil =>
    intro s s' h hc
    obtain rfl := Option.some.inj hc
    exact h
  | cons call history ih =>
    intro s s' h hc
    unfold RabinCDC.calls at hc
    rw [List.foldlM_cons] at hc
    obtain ⟨s₁, h₁, hc⟩ := Option.bind_eq_some_iff.1 hc
    refine ih ?_ hc
    cases call with
    | reinit content =>
      obtain rfl := Option.some.inj h₁
      exact h.reinit content
    | next =>
      obtain ⟨⟨c, s₂⟩, hn, h₁⟩ := Option.bind_eq_some_iff.1 h₁
      obtain rfl := Option.some.inj h₁
      exact h.next hn

theorem rabinReady_new (min max : ℕ) (mask : UInt64) (junk : RabinWindow) :
    RabinReady min max mask (.new min max mask junk) := ⟨rfl, rfl, rfl, .inl rfl⟩

/-- The test of the scanning loop, by the direct hash. -/
def directStop (min max : ℕ) (mask : UInt64) (bytes : List UInt8) : Set ℕ :=
  {n | max ≤ n ∨ (min ≤ n ∧ directHash (bytes.take n) &&& mask.toNat = 0)}

theorem mem_directStop {l : List UInt8} {n : ℕ} : n ∈ directStop min max mask l ↔ rabinStop min max mask l n := by
  have hdigest : (rabinDigest (l.take n)).digest &&& mask = 0 ↔ directHash (l.take n) &&& mask.toNat = 0 := by
    rw [← UInt64.toNat_inj, UInt64.toNat_and, rabinDigest_eq]
    rfl
  unfold rabinStop
  rw [hdigest, or_comm]
  rfl

/-- The first stop of the loop, by the direct hash of the bytes up to it alone. -/
theorem isLeast_directStop {l : List UInt8} {m : ℕ} (hmin : 1 ≤ min) (hmm : min ≤ max) (hm : m ≤ l.length)
    (hstop : rabinStop min max mask l m) (hfirst : ∀ i, 0 < i → i < m → ¬ rabinStop min max mask l i) :
    IsLeast (directStop min max mask (l.take m)) (l.take m).length := by
  have htake : ∀ n ≤ m, rabinStop min max mask (l.take m) n ↔ rabinStop min max mask l n := by
    intro n hn
    unfold rabinStop
    rw [List.take_take, Nat.min_eq_left hn]
  rw [List.length_take_of_le hm]
  refine ⟨mem_directStop.2 ((htake m le_rfl).2 hstop), fun n hn => ?_⟩
  by_contra hlt
  have hearlier := (htake n (by omega)).1 (mem_directStop.1 hn)
  -- no chunk ends before its first byte, since `min` is positive
  have hpos : 0 < n := by
    rcases hearlier with ⟨hle, -⟩ | hle <;> omega
  exact hfirst n hpos (by omega) hearlier

/-- **The scanning loop cuts where the direct hash says**, after any calls and with any memory to begin with:
a chunk is made of the `n` bytes at the cursor, for the least `n` that the test allows. It shows them all
unless they are more than an `int` can count. The digest is the remainder of polynomials, whatever was
scanned before. -/
theorem rabin_cuts_direct (hmin : 1 ≤ min) (hmm : min ≤ max) (mask : UInt64) (junk : RabinWindow)
    (history : List RabinCall) {s s' : RabinCDC} (hs : (RabinCDC.new min max mask junk).calls history = some s)
    {c : Chunk} (hc : s.getNextChunk = some (some c, s')) (hscan : min < s.remainingFileLen) :
    (∃ bytes, bytes = (s.file.mapped.drop s.fileReadPtr).take bytes.length ∧
      s'.fileReadPtr = s.fileReadPtr + bytes.length ∧ s'.remainingFileLen + bytes.length = s.remainingFileLen ∧
      IsLeast (directStop min max mask bytes) bytes.length ∧ c.buf = shown bytes ∧
      (c.buf = bytes ↔ bytes.length < 2 ^ 31)) ∧
    s.win = .rabinReset ∧
    ∀ bytes, (rabinDigest bytes).digest.toNat = directHash bytes ∧ directHash bytes < 2 ^ 53 ∧
      toPoly (directHash bytes) =
        toPoly (bytesNum (lastOf WINSIZE (rabinInput bytes))) %ₘ toPoly polynomial.toNat := by
  have h := (rabinReady_new min max mask junk).calls history hs
  have hpos : s.remainingFileLen ≠ 0 := by omega
  rcases h.cursor.resolve_left hpos with ⟨hcur, hwin⟩ | hend
  · have hdigest : ∀ bytes, (rabinDigest bytes).digest.toNat = directHash bytes ∧ directHash bytes < 2 ^ 53 ∧
        toPoly (directHash bytes) =
          toPoly (bytesNum (lastOf WINSIZE (rabinInput bytes))) %ₘ toPoly polynomial.toNat := fun bytes =>
      ⟨rabinDigest_eq bytes, (hasDegree_polynomial.rem_ok _).1, hasDegree_polynomial.toPoly_rem _⟩
    refine ⟨?_, hwin, hdigest⟩
    have hmore : s.minChunkSize < s.remainingFileLen := by rw [h.min]; exact hscan
    rcases rabin_scan hcur hwin hmore with ⟨m, hm, hmle, hstop, hfirst, hget⟩ | ⟨-, win, hget⟩
    · obtain ⟨hceq, rfl⟩ := Prod.mk.inj (Option.some.inj (hc.symm.trans hget))
      rw [h.min, h.max, h.mask] at hstop hfirst
      set rest := s.file.mapped.drop s.fileReadPtr with hrest
      have hbuf : c.buf = shown (rest.take m) := by
        rw [Option.some.inj hceq]
      have hle : m ≤ rest.length := by
        rw [hrest, List.length_drop]
        omega
      have hlen : (rest.take m).length = m := List.length_take_of_le hle
      have hleft : s.remainingFileLen - m + m = s.remainingFileLen := Nat.sub_add_cancel hmle
      refine ⟨rest.take m, by rw [hlen], by rw [hlen], by rw [hlen]; exact hleft, ?_, hbuf, ?_⟩
      · exact isLeast_directStop hmin hmm hle hstop hfirst
      · rw [hbuf]
        exact shown_eq_iff
    · -- the loop ran off the end: no chunk
      obtain ⟨hnone, -⟩ := Prod.mk.inj (Option.some.inj (hc.symm.trans hget))
      cases hnone
  · rw [getNextChunk_off_end hpos hend] at hc
    cases hc

/-- The scan from the start of a rest whose first stop is known. -/
theorem rabin_scan_at {min ptr left : ℕ} (max : ℕ) (mask : UInt64) (n : ℕ) {mapped : List UInt8}
    (hcur : ptr + left = mapped.length) (hlt : min < left) (id : ℕ) (hpos : 0 < n) (hn : n ≤ left)
    (hstop : rabinStop min max mask (mapped.drop ptr) n)
    (hfirst : ∀ i < n, 0 < i → ¬ rabinStop min max mask (mapped.drop ptr) i) :
    RabinCDC.getNextChunk ⟨min, max, mask, .rabinReset, ⟨mapped⟩, ptr, left, id⟩ =
      some (some ⟨shown ((mapped.drop ptr).take n), id⟩,
        ⟨min, max, mask, .rabinReset, ⟨mapped⟩, ptr + n, left - n, nextId id⟩) := by
  set s : RabinCDC := ⟨min, max, mask, .rabinReset, ⟨mapped⟩, ptr, left, id⟩ with hs
  rcases rabin_scan (s := s) hcur rfl hlt with ⟨m, hm, -, hstop', hfirst', hget⟩ | ⟨hno, -⟩
  · have hmn : m = n := by
      rcases Nat.lt_trichotomy m n with h | h | h
      · exact absurd hstop' (hfirst m h hm)
      · exact h
      · exact absurd hstop (hfirst' n hpos h)
    rw [hget, hmn]
  · exact absurd hstop (hno n hpos hn)

/-- Two files cut by their hashes, the first after four bytes and the second after three, which are what
the direct hash of the second alone says. -/
theorem rabin_cuts_direct_two : ∃ s c s',
    (RabinCDC.new 2 8 3 ⟨[], 0, 0⟩).calls [.reinit (some [1, 2, 3, 4, 5, 6, 7]), .next,
      .reinit (some [3, 1, 4, 1, 5, 9, 2])] = some s ∧
    s.getNextChunk = some (some c, s') ∧ c.buf = [3, 1, 4] ∧ s.win = .rabinReset ∧
    IsLeast (directStop 2 8 3 [3, 1, 4]) 3 ∧ directHash [3, 1, 4] &&& 3 = 0 := by
  have hfirst := rabin_scan_at 8 3 4 (Nat.zero_add ([1, 2, 3, 4, 5, 6, 7] : List UInt8).length) (by decide : 2 < 7)
    0 (by decide) (by decide) (by decide +kernel) (by decide +kernel)
  have hsecond := rabin_scan_at 8 3 3 (Nat.zero_add ([3, 1, 4, 1, 5, 9, 2] : List UInt8).length) (by decide : 2 < 7)
    (nextId 0) (by decide) (by decide) (by decide +kernel) (by decide +kernel)
  have hcalls : (RabinCDC.new 2 8 3 ⟨[], 0, 0⟩).calls [.reinit (some [1, 2, 3, 4, 5, 6, 7]), .next,
      .reinit (some [3, 1, 4, 1, 5, 9, 2])] =
      some ⟨2, 8, 3, .rabinReset, ⟨[3, 1, 4, 1, 5, 9, 2]⟩, 0, ([3, 1, 4, 1, 5, 9, 2] : List UInt8).length, nextId 0⟩ := by
    rw [calls_reinit, reinitWithFile_some (by decide)]
    apply (calls_next hfirst _).trans
    rw [calls_reinit, reinitWithFile_some (by decide)]
    rfl
  obtain ⟨⟨bytes, hbytes, -, -, hleast, hbuf, hall⟩, hwin, -⟩ :=
    rabin_cuts_direct (by decide) (by decide) 3 ⟨[], 0, 0⟩ _ hcalls hsecond (by decide)
  have hshown : shown ([3, 1, 4] : List UInt8) = [3, 1, 4] := shown_eq_iff.2 (by decide)
  have hlen : bytes.length ≤ 7 := by
    have htake := congrArg List.length hbytes
    rw [List.length_take] at htake
    exact htake.le.trans (Nat.min_le_right _ _)
  obtain rfl : [3, 1, 4] = bytes := hshown.symm.trans (hall.2 (by omega))
  -- three bytes are fewer than eight: it is the hash that stops
  rcases hleast.1 with hmax | ⟨-, hhash⟩
  · exact absurd hmax (by decide)
  · rw [List.take_length] at hhash
    have hmask : UInt64.toNat 3 = 3 := by decide
    rw [hmask] at hhash
    exact ⟨_, _, _, hcalls, hsecond, hshown, hwin, hleast, hhash⟩

/-- With one size for `min` and `max` the loop cuts there, whatever the bytes are. -/
theorem rabin_scan_fixed {n ptr left : ℕ} {mapped : List UInt8} (hcur : ptr + left = mapped.length) (hpos : 0 < n)
    (hlt : n < left) (mask : UInt64) (id : ℕ) :
    RabinCDC.getNextChunk ⟨n, n, mask, .rabinReset, ⟨mapped⟩, ptr, left, id⟩ =
      some (some ⟨shown ((mapped.drop ptr).take n), id⟩,
        ⟨n, n, mask, .rabinReset, ⟨mapped⟩, ptr + n, left - n, nextId id⟩) := by
  refine rabin_scan_at n mask n hcur hlt id hpos hlt.le (.inr le_rfl) fun i hi _ => ?_
  rintro (⟨hmin, -⟩ | hmax) <;> omega

/-- **More bytes than an `int` counts**: cut at `2 ^ 31`, the first chunk of such a file shows no byte. -/
theorem rabin_shows_none (content : List UInt8) (hlen : content.length = 2 ^ 31 + 1) : ∃ s c s',
    (RabinCDC.new (2 ^ 31) (2 ^ 31) 0 ⟨[], 0, 0⟩).calls [.reinit (some content)] = some s ∧
    2 ^ 31 < s.remainingFileLen ∧ s.getNextChunk = some (some c, s') ∧ c.buf = [] := by
  have hscan : 2 ^ 31 < content.length := by omega
  have hget := rabin_scan_fixed (Nat.zero_add content.length) (by decide) hscan 0 0
  have hcalls : (RabinCDC.new (2 ^ 31) (2 ^ 31) 0 ⟨[], 0, 0⟩).calls [.reinit (some content)] =
      some ⟨2 ^ 31, 2 ^ 31, 0, .rabinReset, ⟨content⟩, 0, content.length, 0⟩ := by
    rw [calls_reinit, reinitWithFile_some (by omega)]
    rfl
  have hpiece : ((content.drop 0).take (2 ^ 31)).length = 2 ^ 31 := by
    rw [List.length_take, List.length_drop]
    omega
  have hnone : (intOfSize (2 ^ 31)).toNat = 0 := by decide
  have hshown : shown ((content.drop 0).take (2 ^ 31)) = [] := by
    unfold shown
    rw [hpiece, hnone, List.take_zero]
  rw [hshown] at hget
  exact ⟨_, _, _, hcalls, hscan, hget, rfl⟩

/-- So with such a file the length of a chunk is not where the direct hash cuts. -/
theorem rabin_length_short : ∃ s c s',
    (RabinCDC.new (2 ^ 31) (2 ^ 31) 0 ⟨[], 0, 0⟩).calls [.reinit (some (List.replicate (2 ^ 31 + 1) 0))] = some s ∧
    2 ^ 31 < s.remainingFileLen ∧ s.getNextChunk = some (some c, s') ∧
    ∀ bytes, ¬ IsLeast (directStop (2 ^ 31) (2 ^ 31) 0 bytes) c.buf.length := by
  obtain ⟨s, c, s', hcalls, hscan, hget, hbuf⟩ := rabin_shows_none _ List.length_replicate
  refine ⟨s, c, s', hcalls, hscan, hget, fun bytes h => ?_⟩
  rw [hbuf] at h
  rcases h.1 with hle | ⟨hle, -⟩
  · exact absurd hle (by decide)
  · exact absurd hle (by decide)

end ChunkGrouping
