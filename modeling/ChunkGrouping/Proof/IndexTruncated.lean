import ChunkGrouping.Proof.IndexFile

/-!
# Recovering from a truncated file

`RecoverFromFile` compares the number of maps with its own, and aborts on a difference. No
later read is checked. A read of the number that is cut short has its low bytes only.

* `readLE_prefix`: the number that is read from a prefix of a dump.
* `truncated_rejected_iff`: which prefixes are rejected.
-/

namespace ChunkGrouping

open InsertMap LittleEndian

namespace SuperFeatureIndex

variable {ρ : Type}

/-- The entries of `idx'` that are not in `idx` come from `dumped`. -/
def AddsOnly (dumped idx idx' : SuperFeatureIndex ρ) : Prop :=
  ∀ (i : ℕ) (m' : Entries UInt64 ℕ), idx'.index[i]? = some m' → ∀ e ∈ m',
    (∃ m, idx.index[i]? = some m ∧ e ∈ m) ∨ ∃ m, dumped.index[i]? = some m ∧ e ∈ m

/-- **Rejected**: a failure is reported, and nothing was added that was not in the dumped index. -/
def Rejected (dumped : SuperFeatureIndex ρ) (inFile : List UInt8) (idx : SuperFeatureIndex ρ) : Prop :=
  ∃ idx', recoverOutcome inFile idx = .fatal idx' ∧ AddsOnly dumped idx idx'

/-- Only the number of maps is checked. -/
theorem rejected_iff (dumped : SuperFeatureIndex ρ) (inFile : List UInt8) (idx : SuperFeatureIndex ρ) :
    Rejected dumped inFile idx ↔ idx.index.length ≠ (readLE 4 inFile).1 := by
  constructor
  · rintro ⟨idx', hout, -⟩ hcount
    unfold recoverOutcome at hout
    dsimp only at hout
    rw [if_neg (not_not_intro hcount)] at hout
    cases hloop : recoverLoop idx.index (readLE 4 inFile).2 with
    | none =>
      rw [hloop] at hout
      cases hout
    | some index =>
      rw [hloop] at hout
      cases hout
  · intro hcount
    refine ⟨idx, if_pos hcount, fun i m' hm' e he => ?_⟩
    exact .inl ⟨m', hm', he⟩

/-- **A prefix of a dump** begins with the low bytes of the number of maps. -/
theorem readLE_prefix {order : IterOrder (UInt64 × ℕ)} {idx : SuperFeatureIndex ρ} {p : List UInt8}
    (hp : p <+: idx.dumpToFile order) : (readLE 4 p).1 = idx.index.length % 256 ^ min p.length 4 := by
  have hpre : p.take 4 <+: toLE 4 idx.index.length := by
    have hdump : (idx.dumpToFile order).take 4 = toLE 4 idx.index.length := List.take_left' (length_toLE 4 _)
    rw [← hdump]
    exact hp.take 4
  have htake := List.prefix_iff_eq_take.1 hpre
  have hmin : min (p.take 4).length 4 = min p.length 4 := by
    rw [List.length_take]
    omega
  unfold readLE
  dsimp only
  rw [htake, take_toLE, ofLE_toLE, hmin]

/-- **Which prefixes are rejected**: those from which another number of maps is read than the recovering
index has. For the number it has been dumped with, only what is cut within its non-zero bytes. -/
theorem truncated_rejected_iff [BEq ρ] (wordOrder : IterOrder (UInt64 × ℕ)) (order : IterOrder (ρ × ℕ)) {n k : ℕ}
    (hn : n < 2 ^ 31) (adds : List (Feature ρ × UInt32)) {dumped : SuperFeatureIndex ρ}
    (hdumped : addAll adds (.new order n k) = some dumped) {p : List UInt8} (hp : p <+: dumped.dumpToFile wordOrder)
    (idx : SuperFeatureIndex ρ) :
    (Rejected dumped p idx ↔ idx.index.length ≠ n % 256 ^ p.length) ∧
      (idx.index.length = n → (Rejected dumped p idx ↔ 256 ^ p.length ≤ n)) := by
  have hindex := (addAll_state adds (stateOK_new order n k) hdumped).index
  have hmod : n % 256 ^ min p.length 4 = n % 256 ^ p.length := by
    rcases Nat.le_total p.length 4 with hle | hge
    · rw [Nat.min_eq_left hle]
    · have hpow : 256 ^ 4 ≤ 256 ^ p.length := Nat.pow_le_pow_right (by decide) hge
      rw [Nat.min_eq_right hge, Nat.mod_eq_of_lt (by omega), Nat.mod_eq_of_lt (by omega)]
  have hiff : Rejected dumped p idx ↔ idx.index.length ≠ n % 256 ^ p.length := by
    rw [rejected_iff, readLE_prefix hp, hindex, hmod]
  refine ⟨hiff, fun hl => ?_⟩
  rw [hiff, hl, ne_comm, Ne, Nat.mod_eq_iff_lt (by positivity), not_lt]

/-- 256 maps: the first byte of their number is 0, the first two are the number. -/
theorem truncated_rejected_byte : ∃ dumped : SuperFeatureIndex ℚ,
    addAll [(.one (.words (List.replicate 256 7)), 5)] (.new (.byInsertion _) 256 1) = some dumped ∧
      (dumped.dumpToFile (.byInsertion _)).take 2 = [0, 1] ∧
      Rejected dumped ((dumped.dumpToFile (.byInsertion _)).take 1) (.new (.byInsertion _) 256 1) ∧
      ¬Rejected dumped ((dumped.dumpToFile (.byInsertion _)).take 2) (.new (.byInsertion _) 256 1) := by
  have hbytes : (addAll [(.one (.words (List.replicate 256 7)), 5)] (.new (.byInsertion (ℚ × ℕ)) 256 1)).map
      (fun dumped => (dumped.dumpToFile (.byInsertion _)).take 2) = some [0, 1] := by decide +kernel
  obtain ⟨dumped, hdumped, htwo⟩ := Option.map_eq_some_iff.1 hbytes
  have hone : (dumped.dumpToFile (.byInsertion _)).take 1 = [0] := by
    have h := congrArg (List.take 1) htwo
    rwa [List.take_take] at h
  refine ⟨dumped, hdumped, htwo, ?_, ?_⟩
  · rw [((truncated_rejected_iff (.byInsertion _) (.byInsertion _) (by omega : 256 < 2 ^ 31) _ hdumped
      (List.take_prefix 1 _) (.new (.byInsertion _) 256 1)).2 List.length_replicate), hone]
    decide
  · rw [((truncated_rejected_iff (.byInsertion _) (.byInsertion _) (by omega : 256 < 2 ^ 31) _ hdumped
      (List.take_prefix 2 _) (.new (.byInsertion _) 256 1)).2 List.length_replicate), htwo]
    decide

/-- The file ends after the first key: its id is 0 then, and the recovery returns. -/
theorem truncated_accepted : ∃ dumped idx : SuperFeatureIndex ℚ,
    addAll [(.one (.words [7, 8, 9]), 5)] (.new (.byInsertion _) 3 1) = some dumped ∧
      (dumped.dumpToFile (.byInsertion _)).take 20 ≠ dumped.dumpToFile (.byInsertion _) ∧
      recoverOutcome ((dumped.dumpToFile (.byInsertion _)).take 20) (.new (.byInsertion _) 3 1) = .returned idx ∧
      ¬AddsOnly dumped (.new (.byInsertion _) 3 1) idx ∧
      ¬Rejected dumped ((dumped.dumpToFile (.byInsertion _)).take 20) (.new (.byInsertion _) 3 1) := by
  refine ⟨_, _, rfl, by decide, rfl, fun hadds => ?_, fun hrej => ?_⟩
  · rcases hadds 0 [(7, 0)] rfl (7, 0) List.mem_cons_self with ⟨m, hm, he⟩ | ⟨m, hm, he⟩
    · obtain rfl : [] = m := Option.some.inj hm
      exact absurd he List.not_mem_nil
    · obtain rfl : [(7, 5)] = m := Option.some.inj hm
      exact absurd he (by decide)
  · exact (rejected_iff _ _ _).1 hrej (by decide)

end SuperFeatureIndex

end ChunkGrouping
