import ChunkGrouping.Lib.Batches
import ChunkGrouping.Proof.FeaturePairs
import ChunkGrouping.Proof.GearWindow

/-!
# What a super-feature of `PalantirFeature` depends on

The hash of a group runs over the bytes of its sub-features, but from the fifth on. A
sub-feature has 8 bytes of which the last 4 are 0, the lowest come first: the first of the
group is skipped.

* `foldl_gearStep_ne`: fingerprints that differ in their low bits still differ after any bytes
  that do not shift the difference out.
* `hashValue_first`: the first sub-feature of a group does not count.
* `group_depends_iff`: all others do.
-/

namespace ChunkGrouping

open LittleEndian Batching

/-! ## The hash -/

/-- **Fingerprints that differ** in their low bits differ after `bytes` that do not shift these out. -/
theorem foldl_gearStep_ne {k : ℕ} (bytes : List UInt8) (hk : k + bytes.length ≤ 64) {f f' : UInt64}
    (h : f.toNat % 2 ^ k ≠ f'.toNat % 2 ^ k) : bytes.foldl gearStep f ≠ bytes.foldl gearStep f' := by
  have hroll := rolling_gearStep hk
  intro heq
  -- what the bytes add is the same for both
  have hsum := (hroll.foldl_eq bytes f).symm.trans
    ((congrArg (fun f => (f.toNat : ZMod (2 ^ (k + bytes.length)))) heq).trans (hroll.foldl_eq bytes f'))
  have hshifted : 2 ^ bytes.length * f.toNat ≡ 2 ^ bytes.length * f'.toNat [MOD 2 ^ bytes.length * 2 ^ k] := by
    rw [← pow_add, Nat.add_comm, ← ZMod.natCast_eq_natCast_iff]
    simpa only [Nat.cast_mul, Nat.cast_pow, Nat.cast_ofNat] using add_right_cancel hsum
  exact h (Nat.ModEq.mul_left_cancel' (pow_ne_zero _ two_ne_zero) hshifted)

/-- A byte whose entry in the table is odd if that of `b` is even, and even if it is odd. -/
def otherByte (b : UInt8) : UInt8 := if (gear b).toNat % 2 = 0 then 0 else 3

theorem gear_otherByte (b : UInt8) : (gear (otherByte b)).toNat % 2 ≠ (gear b).toNat % 2 := by
  have hzero : (gear 0).toNat % 2 = 1 := by decide +kernel
  have hthree : (gear 3).toNat % 2 = 0 := by decide +kernel
  unfold otherByte
  split
  · next h => rw [hzero, h]; decide
  · next h => rw [hthree]; omega

/-- **One other byte** changes the fingerprint, if fewer than 64 bytes follow. -/
theorem foldl_otherByte_ne (f : UInt64) (b : UInt8) (bytes : List UInt8) (hl : bytes.length < 64) :
    (otherByte b :: bytes).foldl gearStep f ≠ (b :: bytes).foldl gearStep f := by
  rw [List.foldl_cons, List.foldl_cons]
  apply foldl_gearStep_ne (k := 1) bytes (by omega)
  have hpar : ∀ b, (gearStep f b).toNat % 2 = (gear b).toNat % 2 := by
    intro b
    simp only [gearStep, UInt64.toNat_add, UInt64.toNat_shiftLeft, UInt64.toNat_ofNat, Nat.shiftLeft_eq,
      Nat.reducePow, Nat.reduceMod]
    omega
  rw [pow_one, hpar, hpar]
  exact gear_otherByte b

/-! ## A group -/

/-- The bytes of sub-features. -/
def slotBytes (ws : List UInt64) : List UInt8 := ws.flatMap fun w => toLE 8 w.toNat

theorem length_slot (w : UInt64) : (toLE 8 w.toNat).length = 8 := length_toLE 8 _

/-- **A super-feature** is the hash of the slots of its group. -/
theorem getElem?_group (sub : List UInt64) {cnt subf i : ℕ} (hi : i < cnt) :
    (PalantirFeature.group sub cnt subf)[i]? =
      some (PalantirFeature.hashValue (slotBytes ((sub.drop (i * subf)).take subf))) := by
  unfold PalantirFeature.group slotBytes
  rw [List.getElem?_map, List.getElem?_range hi, Option.map_some, ← Nat.mul_assoc,
    drop_flatMap fun w _ => length_slot w, take_flatMap fun w _ => length_slot w]

/-- **The first sub-feature of a group does not count.** -/
theorem hashValue_first {w v : UInt64} (hw : w.toNat < 2 ^ 32) (hv : v.toNat < 2 ^ 32) (ws : List UInt64) :
    PalantirFeature.hashValue (slotBytes (v :: ws)) = PalantirFeature.hashValue (slotBytes (w :: ws)) := by
  have hhigh : ∀ x : UInt64, x.toNat < 2 ^ 32 → (slotBytes (x :: ws)).drop 4 = toLE 4 0 ++ slotBytes ws := by
    intro x hx
    have hdrop : (toLE 8 x.toNat).drop 4 = toLE 4 0 := by
      rw [drop_toLE, Nat.div_eq_of_lt (by omega)]
    rw [slotBytes, List.flatMap_cons, List.drop_append_of_le_length (by rw [length_slot]; omega), hdrop]
    rfl
  rw [PalantirFeature.hashValue, PalantirFeature.hashValue, hhigh w hw, hhigh v hv]

/-- Another value for a sub-feature. -/
def otherValue (w : UInt64) : UInt64 := .ofNat (w.toNat / 256 * 256 + (otherByte (.ofNat w.toNat)).toNat)

theorem toNat_otherValue (w : UInt64) :
    (otherValue w).toNat = w.toNat / 256 * 256 + (otherByte (.ofNat w.toNat)).toNat := by
  have hw : w.toNat < 2 ^ 64 := w.toNat_lt
  have hb : (otherByte (.ofNat w.toNat)).toNat < 2 ^ 8 := UInt8.toNat_lt _
  apply UInt64.toNat_ofNat_of_lt'
  unfold UInt64.size
  omega

/-- It differs in its low byte. -/
theorem toLE_otherValue (w : UInt64) :
    toLE 8 (otherValue w).toNat = otherByte (.ofNat w.toNat) :: toLE 7 (w.toNat / 256) := by
  have hb : (otherByte (.ofNat w.toNat)).toNat < 256 := UInt8.toNat_lt _
  have hbyte : UInt8.ofNat (256 * (w.toNat / 256) + (otherByte (.ofNat w.toNat)).toNat) =
      otherByte (.ofNat w.toNat) := by
    apply UInt8.toNat_inj.1
    rw [UInt8.toNat_ofNat']
    omega
  rw [toNat_otherValue, toLE, Nat.mul_comm, Nat.mul_add_div (by decide), Nat.div_eq_of_lt hb, Nat.add_zero, hbyte]

/-- **A later sub-feature counts.** -/
theorem hashValue_later {pre : List UInt64} (w : UInt64) {post : List UInt64} (hpre : pre ≠ [])
    (hpost : 8 * post.length < 57) :
    PalantirFeature.hashValue (slotBytes (pre ++ otherValue w :: post)) ≠
      PalantirFeature.hashValue (slotBytes (pre ++ w :: post)) := by
  have hlen : 4 ≤ (slotBytes pre).length := by
    have hpos := List.length_pos_iff.2 hpre
    rw [slotBytes, Batching.length_flatMap fun w _ => length_slot w]
    omega
  have hdrop : ∀ x : UInt64, (slotBytes (pre ++ x :: post)).drop 4 =
      (slotBytes pre).drop 4 ++ (toLE 8 x.toNat ++ slotBytes post) := by
    intro x
    rw [slotBytes, List.flatMap_append, List.flatMap_cons]
    exact List.drop_append_of_le_length hlen
  have hw : toLE 8 w.toNat = .ofNat w.toNat :: toLE 7 (w.toNat / 256) := rfl
  unfold PalantirFeature.hashValue
  rw [hdrop, hdrop, toLE_otherValue, hw, List.cons_append, List.cons_append, List.foldl_append, List.foldl_append]
  apply foldl_otherByte_ne
  rw [List.length_append, length_toLE, slotBytes, Batching.length_flatMap fun w _ => length_slot w]
  omega

/-! ## Every group -/

/-- **Exactly the sub-features after the first of a group take part** in its super-feature. -/
theorem group_depends_iff {sub : List UInt64} (hlen : sub.length = 12) (hsub : ∀ w ∈ sub, w.toNat < 2 ^ 32)
    {cnt subf : ℕ} (hshape : (cnt, subf) ∈ levelShapes) {i t : ℕ} (hi : i < cnt) (ht : t < subf) :
    (∃ v : UInt64, v.toNat < 2 ^ 32 ∧ (PalantirFeature.group (sub.set (i * subf + t) v) cnt subf)[i]? ≠
        (PalantirFeature.group sub cnt subf)[i]?) ↔ t ≠ 0 := by
  have hprod : cnt * subf = 12 ∧ subf ≤ 4 := by
    have hall : ∀ s ∈ levelShapes, s.1 * s.2 = 12 ∧ s.2 ≤ 4 := by decide
    exact hall _ hshape
  have hin : i * subf + subf ≤ 12 := by
    rw [← hprod.1, ← Nat.succ_mul]
    exact Nat.mul_le_mul_right _ hi
  -- the group, cut at position `t`: what is before and after it stays
  set ws := (sub.drop (i * subf)).take subf with hws
  have hwlen : ws.length = subf := by
    rw [hws, List.length_take, List.length_drop]
    omega
  have hcut : ∀ v, ((sub.set (i * subf + t) v).drop (i * subf)).take subf = ws.take t ++ v :: ws.drop (t + 1) := by
    intro v
    rw [List.drop_set, if_neg (by omega), Nat.add_sub_cancel_left, List.take_set, ← hws,
      List.set_eq_take_append_cons_drop, if_pos (by omega)]
  have hself : ws = ws.take t ++ ws[t] :: ws.drop (t + 1) := by
    rw [← List.drop_eq_getElem_cons, List.take_append_drop]
  have hwt : ws[t].toNat < 2 ^ 32 := hsub _ (List.mem_of_mem_drop (List.mem_of_mem_take (List.getElem_mem _)))
  have hgroup : ∀ v, (PalantirFeature.group (sub.set (i * subf + t) v) cnt subf)[i]? ≠
      (PalantirFeature.group sub cnt subf)[i]? ↔
      PalantirFeature.hashValue (slotBytes (ws.take t ++ v :: ws.drop (t + 1))) ≠
        PalantirFeature.hashValue (slotBytes (ws.take t ++ ws[t] :: ws.drop (t + 1))) := by
    intro v
    rw [getElem?_group _ hi, getElem?_group _ hi, hcut, ← hws, ← hself, Ne, Ne, Option.some.injEq]
  constructor
  -- the hash skips the four bytes of the first value that are not 0
  · rintro ⟨v, hv, hne⟩ rfl
    rw [hgroup, List.take_zero, List.nil_append, List.nil_append] at hne
    exact hne (hashValue_first hwt hv _)
  · intro hpos
    refine ⟨otherValue ws[t], ?_, (hgroup _).2 (hashValue_later _ ?_ ?_)⟩
    · have hb : (otherByte (.ofNat ws[t].toNat)).toNat < 256 := UInt8.toNat_lt _
      rw [toNat_otherValue]
      omega
    · intro hnil
      have hl := congrArg List.length hnil
      rw [List.length_take, List.length_nil] at hl
      omega
    · rw [List.length_drop]
      omega

/-- The second of the first group of four, all sub-features 0. -/
theorem group_depends_second : ∃ v : UInt64, v.toNat < 2 ^ 32 ∧
    (PalantirFeature.group ((List.replicate 12 0).set 1 v) 3 4)[0]? ≠
      (PalantirFeature.group (List.replicate 12 0) 3 4)[0]? :=
  (group_depends_iff (rfl : (List.replicate 12 0).length = 12)
    (fun w hw => by rw [List.eq_of_mem_replicate hw]; decide) (by decide : (3, 4) ∈ levelShapes)
    (by decide : 0 < 3) (by decide : 1 < 4)).2 (by decide)

/-- The first of the first group of four: no value changes the super-feature. -/
theorem group_ignores_first : ¬∃ v : UInt64, v.toNat < 2 ^ 32 ∧
    (PalantirFeature.group ((List.replicate 12 0).set 0 v) 3 4)[0]? ≠
      (PalantirFeature.group (List.replicate 12 0) 3 4)[0]? := by
  rintro ⟨v, hv, hne⟩
  rw [getElem?_group _ (by decide), getElem?_group _ (by decide)] at hne
  exact hne (congrArg some (hashValue_first (by decide) hv _))

end ChunkGrouping
