import Mathlib.Algebra.CharP.Two
import Mathlib.RingTheory.AdjoinRoot
import Mathlib.Tactic

/-!
# Polynomials over GF(2) as numbers

Bit `i` of a number is the coefficient of `X^i`. Addition is `^^^`, multiplication by `X^k`
a shift, and a remainder is what is left when the high bits are cancelled by shifted copies
of the modulus.

* `coeff_toPoly`, `toPoly_xor`, `toPoly_mul_two_pow`: the correspondence.
* `rem`: long division, bit by bit; `toPoly_rem`: it is the remainder of polynomials.
* `residue`: the class of a number modulo `p`. A number below the degree of `p` is the remainder
  of every number of its class (`rem_eq_of_residue`), so that a computation that keeps classes
  and bounds computes remainders.
* `HasDegree.burst`: numbers that differ only in a range shorter than the degree are in
  different classes.
-/

namespace BinaryPoly

open Polynomial

/-- The polynomial of the bits of `n`. -/
noncomputable def toPoly (n : ℕ) : (ZMod 2)[X] := ∑ i ∈ Finset.range n, if n.testBit i then X ^ i else 0

theorem coeff_toPoly (n i : ℕ) : (toPoly n).coeff i = if n.testBit i then 1 else 0 := by
  have hterm : ∀ j, (if n.testBit j then (X : (ZMod 2)[X]) ^ j else 0).coeff i =
      if i = j then (if n.testBit i then 1 else 0) else 0 := by
    intro j
    by_cases hij : i = j
    · subst hij
      split <;> simp
    · split <;> simp [coeff_X_pow, hij]
  unfold toPoly
  rw [finsetSum_coeff, Finset.sum_congr rfl fun j _ => hterm j, Finset.sum_ite_eq]
  by_cases hbit : n.testBit i = true
  · -- a bit of `n` is below `n`
    have hlt : i < n := Nat.lt_two_pow_self.trans_le (Nat.ge_two_pow_of_testBit hbit)
    rw [if_pos (Finset.mem_range.2 hlt)]
  · rw [if_neg hbit, ite_self]

theorem toPoly_injective : Function.Injective toPoly := by
  intro a b h
  apply Nat.eq_of_testBit_eq
  intro i
  have hcoeff := congrArg (fun f => f.coeff i) h
  simp only [coeff_toPoly] at hcoeff
  cases ha : a.testBit i <;> cases hb : b.testBit i <;> simp_all

@[simp] theorem toPoly_zero : toPoly 0 = 0 := rfl

theorem toPoly_xor (a b : ℕ) : toPoly (a ^^^ b) = toPoly a + toPoly b := by
  ext i
  rw [coeff_add, coeff_toPoly, coeff_toPoly, coeff_toPoly, Nat.testBit_xor]
  cases a.testBit i <;> cases b.testBit i <;> decide

theorem toPoly_mul_two_pow (a k : ℕ) : toPoly (a * 2 ^ k) = toPoly a * X ^ k := by
  ext i
  rw [coeff_mul_X_pow', coeff_toPoly, coeff_toPoly, Nat.testBit_mul_two_pow]
  by_cases hk : k ≤ i <;> simp [hk]

/-- Bits below a shift. -/
theorem mul_two_pow_add {a b k : ℕ} (hb : b < 2 ^ k) : a * 2 ^ k + b = (a * 2 ^ k) ^^^ b := by
  apply Nat.eq_of_testBit_eq
  intro j
  rw [Nat.mul_comm, Nat.testBit_two_pow_mul_add a hb, Nat.testBit_xor, Nat.mul_comm, Nat.testBit_mul_two_pow]
  rcases Nat.lt_or_ge j k with hj | hj
  · simp [hj, Nat.not_le.2 hj]
  · have hzero : b.testBit j = false := Nat.testBit_lt_two_pow (hb.trans_le (Nat.pow_le_pow_right (by decide) hj))
    simp [hj, Nat.not_lt.2 hj, hzero]

theorem degree_toPoly_lt {n k : ℕ} (h : n < 2 ^ k) : (toPoly n).degree < k := by
  rw [degree_lt_iff_coeff_zero]
  intro i hi
  have hzero : n.testBit i = false := Nat.testBit_lt_two_pow (h.trans_le (Nat.pow_le_pow_right (by decide) hi))
  rw [coeff_toPoly, hzero]
  rfl

/-! ## The modulus -/

/-- `p` has degree `d`. -/
structure HasDegree (p d : ℕ) : Prop where
  top : p.testBit d = true
  lt : p < 2 ^ (d + 1)

variable {p d : ℕ}

theorem HasDegree.coeff (h : HasDegree p d) : (toPoly p).coeff d = 1 := by rw [coeff_toPoly, if_pos h.top]

theorem HasDegree.degree (h : HasDegree p d) : (toPoly p).degree = d := by
  apply degree_eq_of_le_of_coeff_ne_zero
  · exact Order.le_of_lt_succ (degree_toPoly_lt h.lt)
  · rw [h.coeff]
    exact one_ne_zero

theorem HasDegree.monic (h : HasDegree p d) : (toPoly p).Monic := monic_of_degree_le d h.degree.le h.coeff

/-- **The top bit cancelled** by a shifted copy of `p`. -/
theorem HasDegree.xor_lt (h : HasDegree p d) {x k : ℕ} (hx : x < 2 ^ (d + k + 1)) (htop : x.testBit (d + k) = true) :
    x ^^^ (p * 2 ^ k) < 2 ^ (d + k) := by
  apply Nat.lt_pow_two_of_testBit
  intro i hi
  rw [Nat.testBit_xor, Nat.testBit_mul_two_pow]
  rcases Nat.eq_or_lt_of_le hi with rfl | hlt
  · have hk : d + k - k = d := by omega
    rw [htop, hk, h.top]
    simp
  · have hxi : x.testBit i = false := Nat.testBit_lt_two_pow (hx.trans_le (Nat.pow_le_pow_right (by decide) hlt))
    have hpi : p.testBit (i - k) = false :=
      Nat.testBit_lt_two_pow (h.lt.trans_le (Nat.pow_le_pow_right (by decide) (by omega)))
    rw [hxi, hpi]
    simp

/-! ## Classes -/

/-- The class of `x` modulo `p`. -/
noncomputable def residue (p x : ℕ) : AdjoinRoot (toPoly p) := AdjoinRoot.mk (toPoly p) (toPoly x)

/-- The class of `X`. -/
noncomputable abbrev shift (p : ℕ) : AdjoinRoot (toPoly p) := AdjoinRoot.root (toPoly p)

@[simp] theorem residue_zero (p : ℕ) : residue p 0 = 0 := by rw [residue, toPoly_zero, map_zero]

theorem residue_xor (p a b : ℕ) : residue p (a ^^^ b) = residue p a + residue p b := by
  rw [residue, toPoly_xor, map_add]
  rfl

theorem class_add_self (x : AdjoinRoot (toPoly p)) : x + x = 0 := by
  obtain ⟨f, rfl⟩ := AdjoinRoot.mk_surjective x
  rw [← map_add, CharTwo.add_self_eq_zero, map_zero]

theorem residue_mul_two_pow (p a k : ℕ) : residue p (a * 2 ^ k) = residue p a * shift p ^ k := by
  rw [residue, toPoly_mul_two_pow, map_mul, map_pow, AdjoinRoot.mk_X]
  rfl

theorem residue_mul_two_pow_add (p a : ℕ) {b k : ℕ} (hb : b < 2 ^ k) :
    residue p (a * 2 ^ k + b) = residue p a * shift p ^ k + residue p b := by
  rw [mul_two_pow_add hb, residue_xor, residue_mul_two_pow]

theorem residue_self (p : ℕ) : residue p p = 0 := AdjoinRoot.mk_self

/-- Cancelling keeps the class. -/
theorem residue_xor_mul (p x k : ℕ) : residue p (x ^^^ (p * 2 ^ k)) = residue p x := by
  rw [residue_xor, residue_mul_two_pow, residue_self, zero_mul, add_zero]

/-- **A number below the degree** is the remainder of its class. -/
theorem HasDegree.modByMonic_eq (h : HasDegree p d) {x r : ℕ} (hr : r < 2 ^ d) (hxr : residue p x = residue p r) :
    toPoly x %ₘ toPoly p = toPoly r := by
  have hdvd := AdjoinRoot.mk_eq_mk.1 hxr
  rw [modByMonic_eq_of_dvd_sub h.monic hdvd, (modByMonic_eq_self_iff h.monic).2]
  rw [h.degree]
  exact degree_toPoly_lt hr

/-! ## Long division -/

/-- `k` rounds of the division, the top bit at `d + k - 1`. -/
def remLoop (p d : ℕ) : ℕ → ℕ → ℕ
  | 0, x => x
  | k + 1, x => remLoop p d k (if x.testBit (d + k) then x ^^^ (p * 2 ^ k) else x)

/-- **The remainder** of `x` modulo `p`. -/
def rem (p x : ℕ) : ℕ := remLoop p p.log2 (x.log2 + 1) x

theorem HasDegree.remLoop_ok (h : HasDegree p d) (k : ℕ) : ∀ x < 2 ^ (d + k),
    remLoop p d k x < 2 ^ d ∧ residue p (remLoop p d k x) = residue p x := by
  induction k with
  | zero =>
    intro x hx
    exact ⟨hx, rfl⟩
  | succ k ih =>
    intro x hx
    rw [remLoop]
    split
    · next htop =>
      obtain ⟨hlt, hres⟩ := ih _ (h.xor_lt hx htop)
      exact ⟨hlt, hres.trans (residue_xor_mul p x k)⟩
    · next htop =>
      apply ih
      apply Nat.lt_pow_two_of_testBit
      intro i hi
      rcases Nat.eq_or_lt_of_le hi with rfl | hlt
      · exact Bool.eq_false_iff.2 htop
      · exact Nat.testBit_lt_two_pow (hx.trans_le (Nat.pow_le_pow_right (by decide) hlt))

theorem HasDegree.rem_ok (h : HasDegree p d) (x : ℕ) : rem p x < 2 ^ d ∧ residue p (rem p x) = residue p x := by
  have hne : p ≠ 0 := by
    rintro rfl
    exact absurd h.top (by simp)
  have hd : p.log2 = d := (Nat.log2_eq_iff hne).2 ⟨Nat.ge_two_pow_of_testBit h.top, h.lt⟩
  unfold rem
  rw [hd]
  apply h.remLoop_ok
  exact Nat.lt_log2_self.trans_le (Nat.pow_le_pow_right (by decide) (by omega))

/-- **The remainder is that of polynomials.** -/
theorem HasDegree.toPoly_rem (h : HasDegree p d) (x : ℕ) : toPoly (rem p x) = toPoly x %ₘ toPoly p :=
  (h.modByMonic_eq (h.rem_ok x).1 (h.rem_ok x).2.symm).symm

/-- **What keeps the class and is small enough** is the remainder. -/
theorem HasDegree.rem_eq_of_residue (h : HasDegree p d) {x r : ℕ} (hr : r < 2 ^ d)
    (hxr : residue p r = residue p x) : rem p x = r := by
  apply toPoly_injective
  rw [h.toPoly_rem, h.modByMonic_eq hr hxr.symm]

/-- Numbers below the degree are in one class only if they are equal. -/
theorem HasDegree.eq_of_residue (h : HasDegree p d) {x y : ℕ} (hx : x < 2 ^ d) (hy : y < 2 ^ d)
    (hxy : residue p x = residue p y) : x = y :=
  (h.rem_eq_of_residue hx hxy).symm.trans (h.rem_eq_of_residue hy rfl)

/-- Remainders are equal if the classes are. -/
theorem HasDegree.rem_inj (h : HasDegree p d) {x y : ℕ} : rem p x = rem p y ↔ residue p x = residue p y := by
  refine ⟨fun hxy => ?_, fun hxy => ?_⟩
  · rw [← (h.rem_ok x).2, ← (h.rem_ok y).2, hxy]
  · exact h.rem_eq_of_residue (h.rem_ok y).1 ((h.rem_ok y).2.trans hxy.symm)

/-! ## Bursts -/

/-- With a constant term in `p`, a shift can be undone. -/
theorem isUnit_shift (hodd : p.testBit 0 = true) : IsUnit (shift p) := by
  have hsplit : X * divX (toPoly p) + 1 = toPoly p := by
    have hconst : (toPoly p).coeff 0 = 1 := by rw [coeff_toPoly, if_pos hodd]
    rw [← C_1, ← hconst, X_mul_divX_add]
  have hzero : shift p * AdjoinRoot.mk (toPoly p) (divX (toPoly p)) + 1 = 0 := by
    have hshift : shift p = AdjoinRoot.mk (toPoly p) X := AdjoinRoot.mk_X.symm
    rw [hshift, ← map_mul, ← map_one (AdjoinRoot.mk (toPoly p)), ← map_add, hsplit, AdjoinRoot.mk_self]
  apply IsUnit.of_mul_eq_one (AdjoinRoot.mk (toPoly p) (divX (toPoly p)))
  calc shift p * AdjoinRoot.mk (toPoly p) (divX (toPoly p))
      = (shift p * AdjoinRoot.mk (toPoly p) (divX (toPoly p)) + 1) + 1 := by rw [add_assoc, class_add_self, add_zero]
    _ = 1 := by rw [hzero, zero_add]

/-- **A burst** of fewer bits than the degree changes the class, wherever it is. -/
theorem HasDegree.burst (h : HasDegree p d) (hodd : p.testBit 0 = true) {x y : ℕ} (hx : x < 2 ^ d) (hy : y < 2 ^ d)
    (k : ℕ) : residue p x * shift p ^ k = residue p y * shift p ^ k ↔ x = y := by
  rw [((isUnit_shift hodd).pow k).mul_left_inj]
  exact ⟨h.eq_of_residue hx hy, congrArg _⟩

end BinaryPoly
