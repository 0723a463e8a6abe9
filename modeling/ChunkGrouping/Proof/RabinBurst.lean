import Mathlib.Data.List.DropRight
import ChunkGrouping.Proof.RabinHash

/-!
# What a Rabin digest can tell apart

The chunker slides its bytes through the window, `FinesseFeature` only appends them. Appended
bytes are never forgotten: the digest is the remainder of all of them. As `polynomial` has a
constant term and degree 53, no change within six bytes in a row is a multiple of it. So the
appended digest changes with every such change, however many bytes follow, and the sliding one
with the part of it that is still in the window.

* `appendDigest_eq`: the digest of appended bytes.
* `residue_burst`: byte strings that differ within six bytes in a row.
* `rabin_burst`: both digests.
-/

namespace ChunkGrouping

open BinaryPoly

/-! ## Appended bytes -/

/-- The digest after appending `bytes` to a window just reset. -/
def appendDigest (bytes : List UInt8) : UInt64 := (bytes.foldl RabinWindow.rabinAppend .rabinReset).digest

/-- **The digest of appended bytes** is the remainder of all of them, behind the 1 of the reset. -/
theorem appendDigest_eq (bytes : List UInt8) :
    (appendDigest bytes).toNat = rem polynomial.toNat (bytesNum (1 :: bytes)) := by
  have hok : (appendDigest bytes).toNat < 2 ^ 53 ∧
      residue polynomial.toNat (appendDigest bytes).toNat = residue polynomial.toNat (bytesNum (1 :: bytes)) := by
    induction bytes using List.reverseRecOn with
    | nil =>
      refine ⟨windowOK_reset.digest_lt, windowOK_reset.digest_class.trans ?_⟩
      rw [bytesNum_concat, bytesNum_zeros]
      rfl
    | append_singleton bytes b ih =>
      have hstep : appendDigest (bytes ++ [b]) =
          ((bytes.foldl RabinWindow.rabinAppend .rabinReset).rabinAppend b).digest := by
        unfold appendDigest
        rw [List.foldl_append]
        rfl
      obtain ⟨hlt, hclass⟩ := rabinAppend_ok ih.1 b
      rw [hstep]
      refine ⟨hlt, hclass.trans ?_⟩
      rw [← List.cons_append, residue_bytesNum_concat, ← ih.2]
      rfl
  exact (hasDegree_polynomial.rem_eq_of_residue hok.1 hok.2).symm

/-! ## Bursts -/

theorem bytesNum_lt (bytes : List UInt8) : bytesNum bytes < 2 ^ (8 * bytes.length) := by
  induction bytes using List.reverseRecOn with
  | nil => decide
  | append_singleton bytes b ih =>
    have hb : b.toNat < 2 ^ 8 := b.toNat_lt
    rw [bytesNum_concat, List.length_append, List.length_singleton, Nat.mul_succ, pow_add]
    omega

/-- A number has one byte string of each length. -/
theorem bytesNum_injective {s t : List UInt8} (hl : s.length = t.length) (h : bytesNum s = bytesNum t) : s = t := by
  induction s using List.reverseRecOn generalizing t with
  | nil => exact (List.length_eq_zero_iff.1 hl.symm).symm
  | append_singleton s b ih =>
    rcases List.eq_nil_or_concat' t with rfl | ⟨t, c, rfl⟩
    · simp at hl
    · have hb : b.toNat < 2 ^ 8 := b.toNat_lt
      have hc : c.toNat < 2 ^ 8 := c.toNat_lt
      rw [bytesNum_concat, bytesNum_concat] at h
      rw [ih (by simpa using hl) (by omega), UInt8.toNat_inj.1 (show b.toNat = c.toNat by omega)]

theorem residue_bytesNum_append (p : ℕ) (u v : List UInt8) :
    residue p (bytesNum (u ++ v)) = residue p (bytesNum u) * shift p ^ (8 * v.length) + residue p (bytesNum v) := by
  induction v using List.reverseRecOn with
  | nil => simp [bytesNum]
  | append_singleton v b ih =>
    rw [← List.append_assoc, residue_bytesNum_concat, residue_bytesNum_concat, ih, List.length_append,
      List.length_singleton]
    ring

/-- **Six bytes in a row** can be told apart, whatever is before and behind them. -/
theorem residue_burst {s t : List UInt8} (hl : s.length = t.length) (hs : s.length ≤ 6) (u v : List UInt8) :
    residue polynomial.toNat (bytesNum (u ++ s ++ v)) = residue polynomial.toNat (bytesNum (u ++ t ++ v)) ↔ s = t := by
  have hlow : ∀ {s : List UInt8}, s.length ≤ 6 → bytesNum s < 2 ^ 53 := fun hs =>
    (bytesNum_lt _).trans_le (Nat.pow_le_pow_right (by decide) (by omega))
  rw [residue_bytesNum_append, residue_bytesNum_append _ u s, residue_bytesNum_append _ (u ++ t),
    residue_bytesNum_append _ u t, hl, add_left_inj, add_mul, add_mul, add_right_inj,
    hasDegree_polynomial.burst (by decide) (hlow hs) (hlow (hl ▸ hs))]
  exact ⟨bytesNum_injective hl, congrArg _⟩

/-! ## The window -/

theorem rtake_append {α : Type*} (l m : List α) (k : ℕ) : (l ++ m).rtake k = l.rtake (k - m.length) ++ m.rtake k := by
  have hm : l.length + m.length - k - l.length = m.length - k := by omega
  have hl : l.drop (l.length + m.length - k) = l.drop (l.length - (k - m.length)) := by
    by_cases hk : k ≤ m.length
    · rw [Nat.sub_eq_zero_of_le hk, Nat.sub_zero, List.drop_length, List.drop_eq_nil_of_le (by omega)]
    · congr 1
      omega
  rw [List.rtake, List.rtake, List.rtake, List.drop_append, List.length_append, hm, hl]

/-- The window has what is left of `s`. -/
theorem window_burst (u s v : List UInt8) : lastOf WINSIZE (rabinInput (u ++ s ++ v)) =
    (List.replicate WINSIZE 0 ++ 1 :: u).rtake (WINSIZE - v.length - s.length) ++ s.rtake (WINSIZE - v.length) ++
      v.rtake WINSIZE := by
  have hin : rabinInput (u ++ s ++ v) = (List.replicate WINSIZE 0 ++ 1 :: u) ++ s ++ v := by
    unfold rabinInput
    simp only [List.append_assoc, List.cons_append]
  rw [hin]
  change (_ : List UInt8).rtake WINSIZE = _
  rw [rtake_append, rtake_append]

/-- **What a Rabin digest tells apart.** Two byte strings of one length differ at most within six bytes in a row. The
sliding digests are equal exactly if these agree as far as they are still in the window, the appended ones exactly if they
agree. -/
theorem rabin_burst {s t : List UInt8} (hl : s.length = t.length) (hs : s.length ≤ 6) (u v : List UInt8) :
    ((rabinDigest (u ++ s ++ v)).digest = (rabinDigest (u ++ t ++ v)).digest ↔
      s.rtake (WINSIZE - v.length) = t.rtake (WINSIZE - v.length)) ∧
    (appendDigest (u ++ s ++ v) = appendDigest (u ++ t ++ v) ↔ s = t) := by
  constructor
  · have hlen : ∀ k, (s.rtake k).length = (t.rtake k).length := fun k => by
      rw [List.rtake, List.rtake, List.length_drop, List.length_drop, hl]
    have hle : ∀ k, (s.rtake k).length ≤ 6 := fun k => (List.length_drop ▸ Nat.sub_le _ _).trans hs
    rw [← UInt64.toNat_inj, rabinDigest_eq, rabinDigest_eq, directHash, directHash, hasDegree_polynomial.rem_inj,
      window_burst, window_burst, ← hl]
    exact residue_burst (hlen _) (hle _) _ _
  · rw [← UInt64.toNat_inj, appendDigest_eq, appendDigest_eq, hasDegree_polynomial.rem_inj]
    exact residue_burst hl hs (1 :: u) v

/-- A byte with 48 bytes behind it: gone from the window, not from the appended digest. -/
theorem rabin_burst_byte :
    (rabinDigest (1 :: List.replicate 48 0)).digest = (rabinDigest (2 :: List.replicate 48 0)).digest ∧
      appendDigest (1 :: List.replicate 48 0) ≠ appendDigest (2 :: List.replicate 48 0) := by
  obtain ⟨hslide, happend⟩ := rabin_burst (s := [1]) (t := [2]) rfl (by decide) [] (List.replicate 48 0)
  exact ⟨hslide.2 rfl, fun h => absurd (happend.1 h) (by decide)⟩

end ChunkGrouping
