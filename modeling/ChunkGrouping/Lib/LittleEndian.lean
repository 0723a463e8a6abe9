import Mathlib.Tactic

/-!
# Little-endian words

`toLE w n` is the low `w` bytes of `n`, least significant first; `ofLE` reads such
bytes back. Both directions agree up to the width (`ofLE_toLE`). The first bytes of a word
are a word, and so are the last (`take_toLE`, `drop_toLE`).
-/

namespace LittleEndian

/-- The low `w` bytes of `n`, least significant first. -/
def toLE : ℕ → ℕ → List UInt8
  | 0, _ => []
  | w + 1, n => UInt8.ofNat n :: toLE w (n / 256)

/-- The number little-endian bytes stand for. -/
def ofLE : List UInt8 → ℕ
  | [] => 0
  | b :: bs => b.toNat + 256 * ofLE bs

@[simp] theorem length_toLE (w n : ℕ) : (toLE w n).length = w := by
  induction w generalizing n with
  | zero => rfl
  | succ w ih => simp [toLE, ih]

theorem take_toLE (k w n : ℕ) : (toLE w n).take k = toLE (min k w) n := by
  induction w generalizing k n with
  | zero => simp [toLE]
  | succ w ih =>
    cases k with
    | zero => simp [toLE]
    | succ k =>
      rw [toLE, List.take_succ_cons, ih, Nat.succ_min_succ]
      rfl

theorem drop_toLE (k w n : ℕ) : (toLE w n).drop k = toLE (w - k) (n / 256 ^ k) := by
  induction k generalizing w n with
  | zero => simp
  | succ k ih =>
    cases w with
    | zero => simp [toLE]
    | succ w => rw [toLE, List.drop_succ_cons, ih, Nat.div_div_eq_div_mul, ← pow_succ', Nat.succ_sub_succ]

theorem ofLE_toLE (w n : ℕ) : ofLE (toLE w n) = n % 256 ^ w := by
  induction w generalizing n with
  | zero => simp [toLE, ofLE, Nat.mod_one]
  | succ w ih =>
    have hb : (UInt8.ofNat n).toNat = n % 256 := by simp [UInt8.toNat_ofNat']
    rw [toLE, ofLE, ih, hb, pow_succ', Nat.mod_mul]

theorem ofLE_toLE_of_lt {w n : ℕ} (h : n < 256 ^ w) : ofLE (toLE w n) = n := by
  rw [ofLE_toLE, Nat.mod_eq_of_lt h]

end LittleEndian
