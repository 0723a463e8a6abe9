import ChunkGrouping.Lib.RollingHash
import ChunkGrouping.Proof.FastCDC
import ChunkGrouping.Proof.SampledMinima

/-!
# The window of the gear fingerprint

A step shifts the fingerprint left by one bit, so modulo `2 ^ k` it forgets a byte after `k`
others. What the code asks of a fingerprint is about its low bits: the cut test of `FastCDC`
with a mask of `k` ones, and the transforms of 32 bits.

* `rolling_gearStep`: modulo `2 ^ k` the fingerprint is a rolling hash by 2.
* `gearPrint_modEq`: fingerprints of bytes that end alike.
* `gear_window`: the window of the fingerprints, of the cut test and of the transforms.
-/

namespace ChunkGrouping

open RollingHash

/-- **A step of the gear fingerprint, modulo `2 ^ k`**, doubles and adds the byte's entry. -/
theorem rolling_gearStep {k : ℕ} (hk : k ≤ 64) :
    Rolling (fun f : UInt64 => (f.toNat : ZMod (2 ^ k))) 2 (fun b => ((gear b).toNat : ZMod (2 ^ k))) gearStep where
  step f b := by
    have hstep : (gearStep f b).toNat ≡ 2 * f.toNat + (gear b).toNat [MOD 2 ^ 64] := by
      simp only [gearStep, UInt64.toNat_add, UInt64.toNat_shiftLeft, UInt64.toNat_ofNat, Nat.shiftLeft_eq,
        Nat.ModEq, Nat.reducePow, Nat.reduceMod]
      omega
    have hlow := (ZMod.natCast_eq_natCast_iff _ _ _).2 (hstep.of_dvd (pow_dvd_pow 2 hk))
    rw [hlow, Nat.cast_add, Nat.cast_mul, Nat.cast_ofNat]

theorem two_pow_eq_zero (k : ℕ) : (2 : ZMod (2 ^ k)) ^ k = 0 := by
  have h := ZMod.natCast_self (2 ^ k)
  rwa [Nat.cast_pow, Nat.cast_ofNat] at h

/-- **Bytes that end alike** have one fingerprint modulo `2 ^ k`. -/
theorem gearPrint_modEq {k : ℕ} (hk : k ≤ 64) {bytes bytes' : List UInt8} (hlen : k ≤ bytes'.length)
    (hend : bytes.rtake k = bytes'.rtake k) : (gearPrint bytes).toNat ≡ (gearPrint bytes').toNat [MOD 2 ^ k] :=
  (ZMod.natCast_eq_natCast_iff _ _ _).1 ((rolling_gearStep hk).foldl_rtake (two_pow_eq_zero k) hlen hend 0 0)

/-- The `uint32_t` fingerprint is the low half. -/
theorem foldl_step (bytes : List UInt8) (f : UInt64) :
    bytes.foldl OdessSubfeatures.step f.toUInt32 = (bytes.foldl gearStep f).toUInt32 := by
  induction bytes generalizing f with
  | nil => rfl
  | cons b bytes ih => rw [List.foldl_cons, List.foldl_cons, OdessSubfeatures.step_toUInt32, ih]

/-- The cut test with a mask of `k` ones is about the low bits. -/
theorem fastStop_ones {k : ℕ} (hk : k ≤ 64) (l : List UInt8) (n : ℕ) :
    fastStop (.ofNat (2 ^ k - 1)) l n ↔ (gearPrint (l.take n)).toNat ≡ 0 [MOD 2 ^ k] := by
  have hle : 2 ^ k ≤ 2 ^ 64 := Nat.pow_le_pow_right (by decide) hk
  have hmask : (UInt64.ofNat (2 ^ k - 1)).toNat = 2 ^ k - 1 := UInt64.toNat_ofNat_of_lt' (by
    have hpos : 0 < 2 ^ k := Nat.two_pow_pos k
    change 2 ^ k - 1 < 2 ^ 64
    omega)
  unfold fastStop
  rw [← UInt64.toNat_inj, UInt64.toNat_and, hmask, Nat.and_two_pow_sub_one_eq_mod]
  rfl

/-- **The cut test** depends on the last `k` bytes. -/
theorem fastStop_congr {k : ℕ} (hk : k ≤ 64) {l l' : List UInt8} {n n' : ℕ} (hn : k ≤ (l'.take n').length)
    (hend : (l.take n).rtake k = (l'.take n').rtake k) :
    fastStop (.ofNat (2 ^ k - 1)) l n ↔ fastStop (.ofNat (2 ^ k - 1)) l' n' := by
  have hprint := gearPrint_modEq hk hn hend
  rw [fastStop_ones hk, fastStop_ones hk]
  exact ⟨hprint.symm.trans, hprint.trans⟩

/-- The low half depends on the last 32 bytes. -/
theorem gearPrint_toUInt32 {bytes bytes' : List UInt8} (hlen : 32 ≤ bytes'.length)
    (hend : bytes.rtake 32 = bytes'.rtake 32) : (gearPrint bytes).toUInt32 = (gearPrint bytes').toUInt32 := by
  apply UInt32.toNat_inj.1
  rw [UInt64.toNat_toUInt32, UInt64.toNat_toUInt32]
  exact gearPrint_modEq (by decide) hlen hend

/-- A transform of `OdessFeature` is one of the low half. -/
theorem transform_eq_low (f : UInt64) :
    OdessFeature.transform f = fun m a => m * f.toUInt32 + a := by
  funext m a
  rw [OdessFeature.transform, UInt64.toUInt32_add, UInt64.toUInt32_mul, UInt32.toUInt32_toUInt64,
    UInt32.toUInt32_toUInt64]

/-- **Gear fingerprints have a bounded window.** Modulo `2 ^ k` a fingerprint depends on the last `k` bytes, in
both widths. So does the cut test of `FastCDC` with a mask of `k` ones, behind a minimum of `k` bytes, wherever
the chunk starts, and the transforms of both Odess calculators depend on the last 32. -/
theorem gear_window :
    (∀ k ≤ 64, ∀ u v w : List UInt8, k ≤ w.length →
      (gearPrint (u ++ w)).toNat ≡ (gearPrint (v ++ w)).toNat [MOD 2 ^ k]) ∧
    (∀ k ≤ 32, ∀ u v w : List UInt8, k ≤ w.length →
      ((u ++ w).foldl OdessSubfeatures.step 0).toNat ≡ ((v ++ w).foldl OdessSubfeatures.step 0).toNat [MOD 2 ^ k]) ∧
    (∀ k ≤ 64, ∀ min, k ≤ min → ∀ (mem mem' : List UInt8) (start start' n n' : ℕ),
      min < n → start + n ≤ mem.length → min < n' → start' + n' ≤ mem'.length →
      ((mem.drop start).take n).rtake k = ((mem'.drop start').take n').rtake k →
      (fastStop (.ofNat (2 ^ k - 1)) (mem.drop start) n ↔ fastStop (.ofNat (2 ^ k - 1)) (mem'.drop start') n')) ∧
    ∀ bytes bytes' : List UInt8, 32 ≤ bytes.length → 32 ≤ bytes'.length → bytes.rtake 32 = bytes'.rtake 32 →
      List.zipWith (OdessFeature.transform (gearPrint bytes)) Features.M Features.A =
        List.zipWith (OdessFeature.transform (gearPrint bytes')) Features.M Features.A ∧
      List.zipWith (OdessSubfeatures.transform (bytes.foldl OdessSubfeatures.step 0)) Features.M Features.A =
        List.zipWith (OdessSubfeatures.transform (bytes'.foldl OdessSubfeatures.step 0)) Features.M Features.A := by
  have hwide : ∀ k ≤ 64, ∀ u v w : List UInt8, k ≤ w.length →
      (gearPrint (u ++ w)).toNat ≡ (gearPrint (v ++ w)).toNat [MOD 2 ^ k] := by
    intro k hk u v w hw
    exact (ZMod.natCast_eq_natCast_iff _ _ _).1
      ((rolling_gearStep hk).foldl_append (two_pow_eq_zero k) hw u v 0 0)
  have hlow : ∀ bytes : List UInt8, bytes.foldl OdessSubfeatures.step 0 = (gearPrint bytes).toUInt32 :=
    fun bytes => foldl_step bytes 0
  refine ⟨hwide, fun k hk u v w hw => ?_, fun k hk min hmin mem mem' start start' n n' hn hle hn' hle' hend => ?_,
    fun bytes bytes' hlen hlen' hend => ?_⟩
  · have hdvd : 2 ^ k ∣ 2 ^ 32 := pow_dvd_pow 2 hk
    rw [hlow, hlow, UInt64.toNat_toUInt32, UInt64.toNat_toUInt32]
    -- the bits above the low half do not count modulo `2 ^ k`
    calc (gearPrint (u ++ w)).toNat % 2 ^ 32 ≡ (gearPrint (u ++ w)).toNat [MOD 2 ^ k] :=
          (Nat.mod_modEq _ _).of_dvd hdvd
      _ ≡ (gearPrint (v ++ w)).toNat [MOD 2 ^ k] := hwide k (by omega) u v w hw
      _ ≡ (gearPrint (v ++ w)).toNat % 2 ^ 32 [MOD 2 ^ k] := ((Nat.mod_modEq _ _).of_dvd hdvd).symm
  · apply fastStop_congr hk _ hend
    rw [List.length_take, List.length_drop]
    omega
  · have hhalf := gearPrint_toUInt32 hlen' hend
    exact ⟨by rw [transform_eq_low, transform_eq_low, hhalf], by rw [hlow, hlow, hhalf]⟩

/-- Two starts of a chunk in one file: behind them, the test with a mask of two ones is one. -/
theorem gear_window_starts : fastStop 3 ([5, 6, 1, 2, 3].drop 0) 5 ↔ fastStop 3 ([5, 6, 1, 2, 3].drop 2) 3 :=
  gear_window.2.2.1 2 (by decide) 2 le_rfl [5, 6, 1, 2, 3] [5, 6, 1, 2, 3] 0 2 5 3 (by decide) (by decide) (by decide)
    (by decide) rfl

end ChunkGrouping
