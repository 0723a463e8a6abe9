import ChunkGrouping.Lib.Batches
import ChunkGrouping.Model.FeatureCalculators

/-!
# What a Finesse feature depends on

The feature in closed form, for any number of groups and of sub-features in a group: each
sub-chunk has the largest digest of its prefixes, these are sorted within a group, and a
super-feature is the digest of a sorted group. Hence only which sub-chunks a group has
counts, and no byte behind the last one.

* `digestLoop_eq`, `sortLoop_eq`, `digestGroup_eq`: the loops.
* `runOf_eq`: the closed form.
* `finesse_permuted`: two chunks with the same sub-chunks in each group.
-/

namespace ChunkGrouping

open CheckedLoop LittleEndian Batching

variable {ρ : Type}

namespace FinesseFeature

/-! ## The loops -/

/-- A byte of a sub-chunk: the window, and the largest digest so far. -/
def digestByte (s : RabinWindow × UInt64) (b : UInt8) : RabinWindow × UInt64 :=
  (s.1.rabinAppend b, max (s.1.rabinAppend b).digest s.2)

/-- The sub-feature of a sub-chunk. -/
def subFeature (bytes : List UInt8) : UInt64 := (bytes.foldl digestByte (.rabinReset, 0)).2

/-- Sub-chunk `k`. -/
def subChunk (content : List UInt8) (subChunkLength k : ℕ) : List UInt8 :=
  (content.drop (k * subChunkLength)).take subChunkLength

/-- **The bytes of a sub-chunk** raise its sub-feature. -/
theorem digestLoop_eq {content : List UInt8} {subChunkLength i : ℕ} {s : List UInt64} {x : UInt64}
    (hx : s[i]? = some x) (hlen : (i + 1) * subChunkLength ≤ content.length) :
    digestLoop content subChunkLength i s =
      write i ((subChunk content subChunkLength i).foldl digestByte (.rabinReset, x)).2 s := by
  obtain ⟨hi, rfl⟩ := List.getElem?_eq_some_iff.1 hx
  rw [Nat.succ_mul] at hlen
  -- after `n` bytes only element `i` has changed
  have hloop : ∀ n ≤ subChunkLength, forLoop (fun j (s : RabinWindow × List UInt64) => do
      let b ← content[i * subChunkLength + j]?
      let rabinCtx := s.1.rabinAppend b
      let subFeature ← s.2[i]?
      let subFeatures ← write i (max rabinCtx.digest subFeature) s.2
      some (rabinCtx, subFeatures)) n (.rabinReset, s) =
        let r := ((content.drop (i * subChunkLength)).take n).foldl digestByte (.rabinReset, s[i])
        some (r.1, s.set i r.2) := by
    intro n
    induction n with
    | zero =>
      intro _
      simp [forLoop]
    | succ n ih =>
      intro hn
      have hlt : i * subChunkLength + n < content.length := by omega
      have hset : ∀ m : UInt64, (s.set i m)[i]? = some m := fun m => by
        rw [List.getElem?_set_self hi]
      have hget : (content.drop (i * subChunkLength))[n]? = some content[i * subChunkLength + n] := by
        rw [List.getElem?_drop, List.getElem?_eq_getElem hlt]
      rw [forLoop, ih (by omega), Option.bind_some, List.getElem?_eq_getElem hlt, List.take_add_one, hget,
        Option.toList_some, List.foldl_append]
      simp only [Option.bind_eq_bind, Option.bind_some, hset]
      rw [write_of_lt (by rw [List.length_set]; exact hi), Option.bind_some, List.set_set]
      rfl
  have hall := hloop subChunkLength le_rfl
  unfold digestLoop
  simp only [Option.bind_eq_bind] at hall ⊢
  rw [hall, Option.bind_some, write_of_lt hi]
  rfl

/-- Sorting the first `m` behind `pre`. -/
theorem sortRange_append (pre : List UInt64) {xs : List UInt64} {m : ℕ} (h : m ≤ xs.length) :
    sortRange pre.length m (pre ++ xs) = some (pre ++ (xs.take m).mergeSort (· ≤ ·) ++ xs.drop m) := by
  unfold sortRange
  rw [if_pos (by rw [List.length_append]; omega), List.take_left, List.drop_left, List.drop_append,
    List.drop_eq_nil_of_le (by omega), Nat.add_sub_cancel_left, List.nil_append]

/-- **Sorting group after group.** -/
theorem sortLoop_eq {c m : ℕ} {xs : List UInt64} (hlen : xs.length = c * m) :
    forLoop (fun i s => sortRange (i * m) m s) c xs =
      some ((List.range c).flatMap fun i => ((xs.drop (i * m)).take m).mergeSort (· ≤ ·)) := by
  set sorted := fun i => ((xs.drop (i * m)).take m).mergeSort (· ≤ ·) with hsorted
  have hin : ∀ i < c, i * m + m ≤ xs.length := by
    intro i hi
    rw [hlen, ← Nat.succ_mul]
    exact Nat.mul_le_mul_right _ hi
  have hgroup : ∀ i < c, (sorted i).length = m := by
    intro i hi
    have hle := hin i hi
    rw [hsorted, List.length_mergeSort, List.length_take, List.length_drop]
    omega
  -- before round `i` the first `i` groups are sorted
  obtain ⟨s, hs, hsc⟩ := forLoop_inv (fun i s => sortRange (i * m) m s) c xs
    (fun i s => s = (List.range i).flatMap sorted ++ xs.drop (i * m)) (by simp) (by
      rintro i hi s rfl
      have hle := hin i hi
      have hpre : ((List.range i).flatMap sorted).length = i * m := by
        rw [length_flatMap fun k hk => hgroup k ((List.mem_range.1 hk).trans hi), List.length_range]
      have hrest : m ≤ (xs.drop (i * m)).length := by
        rw [List.length_drop]
        omega
      have hround := sortRange_append ((List.range i).flatMap sorted) hrest
      rw [hpre] at hround
      refine ⟨_, hround, ?_⟩
      rw [List.range_succ, List.flatMap_append, List.flatMap_singleton, Nat.succ_mul, List.drop_drop])
  rw [hs, hsc, ← hlen, List.drop_length, List.append_nil]

/-- The digest of sorted sub-features. -/
def groupDigest (ws : List UInt64) : UInt64 :=
  (ws.foldl (fun rabinCtx w => (toLE 8 w.toNat).foldl RabinWindow.rabinAppend rabinCtx) RabinWindow.rabinReset).digest

/-- **The digest of a group** reads its sub-features. -/
theorem digestGroup_eq {c m i : ℕ} {xs : List UInt64} (hlen : xs.length = c * m) (hi : i < c) :
    digestGroup m xs i = some (groupDigest ((xs.drop (i * m)).take m)) := by
  have hle : m * i + m ≤ xs.length := by
    rw [hlen, Nat.mul_comm m i, ← Nat.succ_mul]
    exact Nat.mul_le_mul_right _ hi
  have hloop := readLoop_eq (fun (rabinCtx : RabinWindow) w =>
    (toLE 8 (UInt64.toNat w)).foldl RabinWindow.rabinAppend rabinCtx) hle .rabinReset
  unfold digestGroup
  rw [hloop, Nat.mul_comm m i]
  rfl

/-! ## The feature -/

/-- The sub-chunks of group `i`. -/
def groupOf (sfCnt sfSubf : ℕ) (chunk : Chunk) (i : ℕ) : List (List UInt8) :=
  (List.range sfSubf).map fun j => subChunk chunk.buf (chunk.len / (sfSubf * sfCnt)) (i * sfSubf + j)

/-- **The super-feature** of a group of sub-chunks. -/
def superFeature (group : List (List UInt8)) : UInt64 := groupDigest ((group.map subFeature).mergeSort (· ≤ ·))

/-- A group of a list that is given by its elements. -/
theorem take_drop_range {α : Type} (f : ℕ → α) {c m i : ℕ} (hi : i < c) :
    (((List.range (c * m)).map f).drop (i * m)).take m = (List.range m).map fun j => f (i * m + j) := by
  have hle : (i + 1) * m ≤ c * m := Nat.mul_le_mul_right _ hi
  rw [Nat.succ_mul] at hle
  refine List.ext_getElem (by simp; omega) fun j h₁ h₂ => ?_
  simp

/-- **The feature in closed form.** -/
theorem runOf_eq {sfCnt sfSubf : ℕ} (h : ¬(sfSubf * sfCnt = 0 ∨ 2 ^ 31 ≤ sfSubf * sfCnt)) (chunk : Chunk) :
    (runOf sfCnt sfSubf chunk : Option (Feature ρ)) =
      some (.words ((List.range sfCnt).map fun i => superFeature (groupOf sfCnt sfSubf chunk i))) := by
  set len := chunk.len / (sfSubf * sfCnt) with hl
  set subs := (List.range (sfCnt * sfSubf)).map fun k => subFeature (subChunk chunk.buf len k) with hsubs
  have hsublen : subs.length = sfCnt * sfSubf := by rw [hsubs, List.length_map, List.length_range]
  have hin : ∀ k < sfCnt * sfSubf, (k + 1) * len ≤ chunk.buf.length := by
    intro k hk
    calc (k + 1) * len ≤ sfSubf * sfCnt * len := Nat.mul_le_mul_right _ (by rw [Nat.mul_comm sfSubf]; exact hk)
      _ ≤ chunk.buf.length := Nat.mul_div_le _ _
  -- first loop: one sub-feature for each sub-chunk
  have hfirst : forLoop (fun i s => digestLoop chunk.buf len i s) (sfCnt * sfSubf)
      (List.replicate (sfCnt * sfSubf) 0) = some subs := by
    rw [updateLoop_eq List.length_replicate fun k hk ys x hx => digestLoop_eq hx (hin k hk), Option.some.injEq]
    exact List.ext_getElem (by simp [hsubs]) fun k h₁ h₂ => by simp [hsubs, subFeature]
  -- second loop: the groups sorted
  have hsorted := sortLoop_eq hsublen
  set sorted := (List.range sfCnt).flatMap fun i => ((subs.drop (i * sfSubf)).take sfSubf).mergeSort (· ≤ ·) with hsort
  have hpiece : ∀ i ∈ List.range sfCnt, (((subs.drop (i * sfSubf)).take sfSubf).mergeSort (· ≤ ·)).length = sfSubf := by
    intro i hi
    rw [hsubs, take_drop_range _ (List.mem_range.1 hi), List.length_mergeSort, List.length_map, List.length_range]
  have hsortlen : sorted.length = sfCnt * sfSubf := by rw [hsort, length_flatMap hpiece, List.length_range]
  have hgroup : ∀ i < sfCnt, digestGroup sfSubf sorted i = some (superFeature (groupOf sfCnt sfSubf chunk i)) := by
    intro i hi
    have hp := piece_flatMap hpiece (List.getElem?_range hi)
    rw [digestGroup_eq hsortlen hi, hsort, hp, hsubs, take_drop_range _ hi, superFeature, groupOf, List.map_map]
    rfl
  -- third loop: one super-feature for each group
  have hlast : forLoop (fun i s => (digestGroup sfSubf sorted i).bind fun digest => write i digest s) sfCnt
      (List.replicate sfCnt 0) =
        some ((List.range sfCnt).map fun i => superFeature (groupOf sfCnt sfSubf chunk i)) := by
    refine fillLoop_eq 0 fun i hi ys => ?_
    rw [hgroup i hi, Option.bind_some]
  unfold runOf
  rw [if_neg h]
  simp only [Option.bind_eq_bind, ← hl]
  rw [hfirst, Option.bind_some, hsorted, Option.bind_some, hlast]
  rfl

/-- **Sorting forgets the order.** -/
theorem mergeSort_congr {ws ws' : List UInt64} (h : ws.Perm ws') :
    ws.mergeSort (· ≤ ·) = ws'.mergeSort (· ≤ ·) := by
  have hsorted : ∀ ws : List UInt64, (ws.mergeSort (· ≤ ·)).Pairwise fun a b => decide (a ≤ b) = true := by
    apply List.pairwise_mergeSort
    · intro a b c hab hbc
      exact decide_eq_true (UInt64.le_trans (of_decide_eq_true hab) (of_decide_eq_true hbc))
    · intro a b
      simpa using UInt64.le_total a b
  apply List.Perm.eq_of_pairwise _ (hsorted ws) (hsorted ws')
  · exact (List.mergeSort_perm ws _).trans (h.trans (List.mergeSort_perm ws' _).symm)
  · intro a b _ _ hab hba
    exact UInt64.le_antisymm (of_decide_eq_true hab) (of_decide_eq_true hba)

/-- **Chunks that have the same sub-chunks in each group**, in any order, and any bytes behind them, have
the same feature. -/
theorem finesse_permuted (sfCnt sfSubf : ℕ) (hcnt : 0 < sfCnt) (hsubf : 0 < sfSubf) (chunk chunk' : Chunk)
    (hperm : ∀ i < sfCnt, (groupOf sfCnt sfSubf chunk' i).Perm (groupOf sfCnt sfSubf chunk i)) :
    (runOf sfCnt sfSubf chunk' : Option (Feature ρ)) = runOf sfCnt sfSubf chunk ∧
      (sfSubf * sfCnt < 2 ^ 31 → ∃ ws, (runOf sfCnt sfSubf chunk : Option (Feature ρ)) = some (.words ws)) := by
  have hpos : sfSubf * sfCnt ≠ 0 := Nat.mul_ne_zero hsubf.ne' hcnt.ne'
  constructor
  · by_cases h : sfSubf * sfCnt = 0 ∨ 2 ^ 31 ≤ sfSubf * sfCnt
    · unfold runOf
      rw [if_pos h, if_pos h]
    · have hgroups : ((List.range sfCnt).map fun i => superFeature (groupOf sfCnt sfSubf chunk' i)) =
          (List.range sfCnt).map fun i => superFeature (groupOf sfCnt sfSubf chunk i) := by
        apply List.map_congr_left
        intro i hi
        unfold superFeature
        rw [mergeSort_congr ((hperm i (List.mem_range.1 hi)).map subFeature)]
      rw [runOf_eq h, runOf_eq h, hgroups]
  · intro hint
    exact ⟨_, runOf_eq (by omega) chunk⟩

/-- One group of two sub-chunks of one byte, swapped, and a byte behind them. -/
theorem finesse_permuted_two : (runOf 1 2 ⟨[2, 1, 7], 0⟩ : Option (Feature ℚ)) = runOf 1 2 ⟨[1, 2], 0⟩ := by
  refine (finesse_permuted 1 2 (by decide) (by decide) ⟨[1, 2], 0⟩ ⟨[2, 1, 7], 0⟩ fun i hi => ?_).1
  obtain rfl := Nat.lt_one_iff.1 hi
  exact .swap _ _ _

end FinesseFeature

end ChunkGrouping
