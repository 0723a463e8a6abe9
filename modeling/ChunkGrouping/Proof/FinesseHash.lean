import ChunkGrouping.Proof.Finesse
import ChunkGrouping.Proof.RabinBurst

/-!
# `FinesseFeature` in polynomials

The digest of a sub-chunk is not the sliding one: nothing slides out, so each prefix of the
sub-chunk is hashed whole.

* `toNat_subFeature`: a sub-feature is the largest hash of a prefix.
* `finesse_polynomial`: the feature, with no register, table or loop left.
-/

namespace ChunkGrouping.FinesseFeature

open BinaryPoly LittleEndian

variable {ρ : Type}

/-- The hash of a byte string: a 1 and the bytes, as a polynomial over GF(2), modulo `polynomial`. -/
def byteHash (bytes : List UInt8) : ℕ := rem polynomial.toNat (bytesNum (1 :: bytes))

/-- The largest hash of a prefix that is not empty, 0 if there is none. -/
def prefixMax (bytes : List UInt8) : ℕ := (Finset.range bytes.length).sup fun n => byteHash (bytes.take (n + 1))

/-- The hash of numbers, smallest first, 8 bytes each. -/
def sortedHash (ms : List ℕ) : ℕ := byteHash ((ms.mergeSort (· ≤ ·)).flatMap (toLE 8))

theorem toNat_max (x y : UInt64) : (max x y).toNat = max x.toNat y.toNat := by
  have hmax : max x y = if x ≤ y then y else x := rfl
  rw [hmax, Nat.max_def]
  by_cases hle : x ≤ y
  · rw [if_pos hle, if_pos (UInt64.le_iff_toNat_le.1 hle)]
  · rw [if_neg hle, if_neg fun h => hle (UInt64.le_iff_toNat_le.2 h)]

/-- The window of the loop over a sub-chunk. -/
theorem foldl_digestByte (bytes : List UInt8) : bytes.foldl digestByte (.rabinReset, 0) =
    (bytes.foldl RabinWindow.rabinAppend .rabinReset, subFeature bytes) := by
  induction bytes using List.reverseRecOn with
  | nil => rfl
  | append_singleton bytes b ih =>
    unfold subFeature
    rw [List.foldl_append, List.foldl_append, ih]
    rfl

/-- **A sub-feature** is the largest hash of a prefix. -/
theorem toNat_subFeature (bytes : List UInt8) : (subFeature bytes).toNat = prefixMax bytes := by
  induction bytes using List.reverseRecOn with
  | nil => rfl
  | append_singleton bytes b ih =>
    have hstep : subFeature (bytes ++ [b]) = max (appendDigest (bytes ++ [b])) (subFeature bytes) := by
      unfold subFeature appendDigest
      rw [List.foldl_append, List.foldl_append, foldl_digestByte]
      rfl
    have hshort : (Finset.range bytes.length).sup (fun n => byteHash ((bytes ++ [b]).take (n + 1))) = prefixMax bytes :=
      Finset.sup_congr rfl fun n hn => by rw [List.take_append_of_le_length (Finset.mem_range.1 hn)]
    have hall : (bytes ++ [b]).take (bytes.length + 1) = bytes ++ [b] :=
      List.take_of_length_le (by rw [List.length_append, List.length_singleton])
    rw [hstep, toNat_max, appendDigest_eq, ih, ← hshort, prefixMax, List.length_append, List.length_singleton,
      Finset.range_add_one, Finset.sup_insert, hall]
    rfl

/-- **A super-feature** is the hash of the sorted sub-features. -/
theorem toNat_superFeature (group : List (List UInt8)) :
    (superFeature group).toNat = sortedHash (group.map prefixMax) := by
  have hsort : ((group.map subFeature).mergeSort (· ≤ ·)).map UInt64.toNat = (group.map prefixMax).mergeSort (· ≤ ·) := by
    rw [List.map_mergeSort (r := fun x y => decide (x ≤ y)) (s := fun a b => decide (a ≤ b)) (f := UInt64.toNat)
      fun x _ y _ => decide_eq_decide.2 UInt64.le_iff_toNat_le, List.map_map]
    congr 1
    exact List.map_congr_left fun bytes _ => toNat_subFeature bytes
  have hdigest : ∀ ws : List UInt64, groupDigest ws = appendDigest ((ws.map UInt64.toNat).flatMap (toLE 8)) := by
    intro ws
    rw [appendDigest, List.foldl_flatMap, List.foldl_map]
    rfl
  rw [superFeature, hdigest, hsort, appendDigest_eq]
  rfl

/-- **The Finesse feature in polynomials.** For any number of groups and of sub-chunks in a group it has one word for
each group: the hash of the sorted maxima, over the prefixes of a sub-chunk, of their hashes. -/
theorem finesse_polynomial (sfCnt sfSubf : ℕ) (hpos : 0 < sfSubf * sfCnt) (hint : sfSubf * sfCnt < 2 ^ 31) (chunk : Chunk) :
    ∃ ws : List UInt64, (runOf sfCnt sfSubf chunk : Option (Feature ρ)) = some (.words ws) ∧
      ws.map UInt64.toNat = (List.range sfCnt).map fun i => sortedHash ((List.range sfSubf).map fun j =>
        prefixMax (subChunk chunk.buf (chunk.len / (sfSubf * sfCnt)) (i * sfSubf + j))) := by
  refine ⟨_, runOf_eq (by omega) chunk, ?_⟩
  rw [List.map_map]
  refine List.map_congr_left fun i _ => ?_
  rw [Function.comp_apply, toNat_superFeature, groupOf, List.map_map]
  rfl

/-- Two sub-chunks of one byte. -/
theorem finesse_polynomial_two : ∃ ws : List UInt64,
    (runOf 1 2 ⟨[1, 2], 0⟩ : Option (Feature ℚ)) = some (.words ws) ∧
      ws.map UInt64.toNat = [byteHash (toLE 8 257 ++ toLE 8 258)] := by
  obtain ⟨ws, hrun, hws⟩ := finesse_polynomial (ρ := ℚ) 1 2 (by decide) (by decide) ⟨[1, 2], 0⟩
  refine ⟨ws, hrun, hws.trans ?_⟩
  have hmax : (List.range 2).map (fun j => prefixMax (subChunk [1, 2] (2 / (2 * 1)) (0 * 2 + j))) = [257, 258] := by
    decide +kernel
  have hhash : sortedHash [257, 258] = byteHash (toLE 8 257 ++ toLE 8 258) := by
    rw [sortedHash, List.mergeSort_of_pairwise (by decide)]
    rfl
  exact (congrArg (fun ms => [sortedHash ms]) hmax).trans (congrArg (fun n => [n]) hhash)

end ChunkGrouping.FinesseFeature
