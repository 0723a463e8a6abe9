import Mathlib.Data.List.GetD
import Mathlib.Data.List.Rotate
import ChunkGrouping.Lib.BinaryPoly
import ChunkGrouping.Proof.RabinCDC

/-!
# The sliding digest is a remainder

Every operation on the digest keeps its class modulo `polynomial`, and the digest below
`2^53`: so it is the remainder of what went into it.

* `mod_ok`: the division of the source; `appendByte_ok`, `outTable_ok`, `modTable_ok` for the
  tables.
* `rabinAppend_ok`: one byte more. An entry of `mod_table` is the cancelled bits and their
  remainder, hence of the class of 0.
* `rabinSlide_ok`: one byte more and one byte less; `WindowOK` ties the digest to the window.
* `rabinDigest_eq`: the digest after any bytes is the remainder of the last 48.
-/

namespace ChunkGrouping

open BinaryPoly

/-! ## `deg` and `mod` -/

theorem bit_iff (p : UInt64) {k : ℕ} (hk : k < 64) :
    (p >>> UInt64.ofNat k) &&& 1 = 1 ↔ p.toNat.testBit k = true := by
  have hk' : (UInt64.ofNat k).toNat % 64 = k := by
    rw [UInt64.toNat_ofNat_of_lt' (by unfold UInt64.size; omega), Nat.mod_eq_of_lt hk]
  rw [← UInt64.toNat_inj, UInt64.toNat_and, UInt64.toNat_shiftRight, hk']
  change p.toNat >>> k &&& 1 = 1 ↔ _
  rw [Nat.and_one_is_mod, Nat.shiftRight_eq_div_pow, Nat.testBit_eq_decide_div_mod_eq, decide_eq_true_iff]

/-- **The highest bit.** -/
theorem degLoop_ok (p : UInt64) (k : ℕ) (hk : k ≤ 64) (hp : p.toNat < 2 ^ k) :
    (p = 0 ∧ degLoop p k = -1) ∨ ∃ d : ℕ, d < k ∧ degLoop p k = d ∧ HasDegree p.toNat d := by
  induction k with
  | zero =>
    refine .inl ⟨UInt64.toNat_inj.1 ?_, rfl⟩
    rw [UInt64.toNat_zero]
    omega
  | succ k ih =>
    rw [degLoop]
    by_cases hbit : (p >>> UInt64.ofNat k) &&& 1 = 1
    · rw [if_pos hbit]
      exact .inr ⟨k, Nat.lt_succ_self k, rfl, (bit_iff p (by omega)).1 hbit, hp⟩
    · rw [if_neg hbit]
      -- without bit `k` the number is smaller
      have hlt : p.toNat < 2 ^ k := by
        apply Nat.lt_pow_two_of_testBit
        intro i hi
        rcases Nat.eq_or_lt_of_le hi with rfl | hlt
        · exact Bool.eq_false_iff.2 fun h => hbit ((bit_iff p (by omega)).2 h)
        · exact Nat.testBit_lt_two_pow (hp.trans_le (Nat.pow_le_pow_right (by decide) hlt))
      rcases ih (by omega) hlt with hzero | ⟨d, hd, h⟩
      · exact .inl hzero
      · exact .inr ⟨d, by omega, h⟩

theorem deg_ok (p : UInt64) : (p = 0 ∧ deg p = -1) ∨ ∃ d : ℕ, d < 64 ∧ deg p = d ∧ HasDegree p.toNat d :=
  degLoop_ok p 64 le_rfl p.toNat_lt

theorem deg_eq {p : UInt64} {d : ℕ} (h : HasDegree p.toNat d) : deg p = d := by
  rcases deg_ok p with ⟨rfl, -⟩ | ⟨e, -, he, h'⟩
  · exact absurd h.top (by simp)
  · have hed : e = d := by
      apply Nat.le_antisymm
      · exact Nat.le_of_lt_succ ((Nat.pow_lt_pow_iff_right (by decide)).1
          ((Nat.ge_two_pow_of_testBit h'.top).trans_lt h.lt))
      · exact Nat.le_of_lt_succ ((Nat.pow_lt_pow_iff_right (by decide)).1
          ((Nat.ge_two_pow_of_testBit h.top).trans_lt h'.lt))
    rw [he, hed]

/-- **The rounds of `mod`** keep the class; each clears the highest bit. -/
theorem modLoop_ok {p : UInt64} {d : ℕ} (hp : HasDegree p.toNat d) (k : ℕ) : ∀ x : UInt64, x.toNat < 2 ^ (d + k) →
    (modLoop p k x).toNat < 2 ^ d ∧ residue p.toNat (modLoop p k x).toNat = residue p.toNat x.toNat := by
  have hd := deg_eq hp
  induction k with
  | zero =>
    intro x hx
    exact ⟨hx, rfl⟩
  | succ k ih =>
    intro x hx
    rw [modLoop]
    rcases deg_ok x with ⟨rfl, hx0⟩ | ⟨e, he, hxe, hdeg⟩
    · rw [hx0, hd, if_neg (by omega)]
      exact ⟨by rw [UInt64.toNat_zero]; positivity, rfl⟩
    · rw [hxe, hd]
      by_cases hde : d ≤ e
      · rw [if_pos (by exact_mod_cast hde)]
        have hshift : ((e : ℤ) - d).toNat = e - d := by omega
        have hpow : p.toNat * 2 ^ (e - d) < 2 ^ 64 := by
          calc p.toNat * 2 ^ (e - d) < 2 ^ (d + 1) * 2 ^ (e - d) := Nat.mul_lt_mul_of_pos_right hp.lt (by positivity)
            _ = 2 ^ (e + 1) := by rw [← pow_add]; congr 1; omega
            _ ≤ 2 ^ 64 := Nat.pow_le_pow_right (by decide) he
        have hxor : (x ^^^ (p <<< UInt64.ofNat (e - d))).toNat = x.toNat ^^^ (p.toNat * 2 ^ (e - d)) := by
          have hsh : (UInt64.ofNat (e - d)).toNat % 64 = e - d := by
            rw [UInt64.toNat_ofNat_of_lt' (by unfold UInt64.size; omega), Nat.mod_eq_of_lt (by omega)]
          rw [UInt64.toNat_xor, UInt64.toNat_shiftLeft, hsh, Nat.shiftLeft_eq, Nat.mod_eq_of_lt hpow]
        have hde' : d + (e - d) = e := by omega
        have hlt : x.toNat ^^^ (p.toNat * 2 ^ (e - d)) < 2 ^ e := by
          have h := hp.xor_lt (x := x.toNat) (k := e - d) (by rw [hde']; exact hdeg.lt) (by rw [hde']; exact hdeg.top)
          rwa [hde'] at h
        have hek : e ≤ d + k := Nat.le_of_lt_succ ((Nat.pow_lt_pow_iff_right (by decide)).1
          ((Nat.ge_two_pow_of_testBit hdeg.top).trans_lt hx))
        rw [hshift]
        obtain ⟨hlast, hres⟩ := ih _ (by rw [hxor]; exact hlt.trans_le (Nat.pow_le_pow_right (by decide) hek))
        exact ⟨hlast, by rw [hres, hxor, residue_xor_mul]⟩
      · rw [if_neg (by exact_mod_cast hde)]
        exact ⟨hdeg.lt.trans_le (Nat.pow_le_pow_right (by decide) (by omega)), rfl⟩

theorem mod_ok {p : UInt64} {d : ℕ} (hp : HasDegree p.toNat d) (x : UInt64) :
    (mod x p).toNat < 2 ^ d ∧ residue p.toNat (mod x p).toNat = residue p.toNat x.toNat :=
  modLoop_ok hp 64 x (x.toNat_lt.trans_le (Nat.pow_le_pow_right (by decide) (by omega)))

/-! ## The tables -/

theorem hasDegree_polynomial : HasDegree polynomial.toNat 53 := ⟨by decide, by decide⟩

/-- A byte shifted in. -/
theorem toNat_shiftByte {h : UInt64} (hh : h.toNat < 2 ^ 56) (b : UInt8) :
    ((h <<< 8) ||| b.toUInt64).toNat = h.toNat * 2 ^ 8 + b.toNat := by
  have hb : b.toNat < 2 ^ 8 := b.toNat_lt
  have hshift : (h <<< 8).toNat = 2 ^ 8 * h.toNat := by
    rw [UInt64.toNat_shiftLeft, Nat.shiftLeft_eq]
    simp only [UInt64.toNat_ofNat, Nat.reducePow, Nat.reduceMod]
    omega
  rw [UInt64.toNat_or, hshift, UInt8.toNat_toUInt64, ← Nat.two_pow_add_eq_or_of_lt hb, Nat.mul_comm]

theorem appendByte_ok {hash : UInt64} (hh : hash.toNat < 2 ^ 53) (b : UInt8) :
    (appendByte hash b polynomial).toNat < 2 ^ 53 ∧ residue polynomial.toNat (appendByte hash b polynomial).toNat =
      residue polynomial.toNat hash.toNat * shift polynomial.toNat ^ 8 + residue polynomial.toNat b.toNat := by
  obtain ⟨hlt, hres⟩ := mod_ok hasDegree_polynomial ((hash <<< 8) ||| b.toUInt64)
  refine ⟨hlt, ?_⟩
  unfold appendByte
  rw [hres, toNat_shiftByte (by omega), residue_mul_two_pow_add _ _ b.toNat_lt]

/-- Zeros behind. -/
theorem appendZeros_ok (n : ℕ) : ∀ hash : UInt64, hash.toNat < 2 ^ 53 →
    ((List.replicate n 0).foldl (fun hash z => appendByte hash z polynomial) hash).toNat < 2 ^ 53 ∧
      residue polynomial.toNat ((List.replicate n 0).foldl (fun hash z => appendByte hash z polynomial) hash).toNat =
        residue polynomial.toNat hash.toNat * shift polynomial.toNat ^ (8 * n) := by
  induction n with
  | zero =>
    intro hash hh
    exact ⟨hh, by simp⟩
  | succ n ih =>
    intro hash hh
    obtain ⟨hlt, hres⟩ := appendByte_ok hh 0
    obtain ⟨hlt', hres'⟩ := ih _ hlt
    rw [List.replicate_succ, List.foldl_cons]
    refine ⟨hlt', ?_⟩
    rw [hres', hres, UInt8.toNat_zero, residue_zero]
    ring

/-- **`out_table`**: a byte with 47 bytes behind it. -/
theorem outTable_ok (b : UInt8) : (outTable b).toNat < 2 ^ 53 ∧
    residue polynomial.toNat (outTable b).toNat =
      residue polynomial.toNat b.toNat * shift polynomial.toNat ^ (8 * 47) := by
  obtain ⟨hlt, hres⟩ := appendByte_ok (show (0 : UInt64).toNat < 2 ^ 53 by decide) b
  obtain ⟨hlt', hres'⟩ := appendZeros_ok 47 _ hlt
  refine ⟨hlt', hres'.trans ?_⟩
  rw [hres, UInt64.toNat_zero, residue_zero, zero_mul, zero_add]

/-- **`mod_table`**: the bits from 53 on, and their remainder. -/
theorem modTable_ok (i : UInt8) : ∃ m < 2 ^ 53, (modTable i).toNat = i.toNat * 2 ^ 53 + m ∧
    residue polynomial.toNat m = residue polynomial.toNat (i.toNat * 2 ^ 53) := by
  have hi : i.toNat < 2 ^ 8 := i.toNat_lt
  have hhigh : (i.toUInt64 <<< UInt64.ofNat (deg polynomial).toNat).toNat = 2 ^ 53 * i.toNat := by
    rw [deg_eq hasDegree_polynomial, UInt64.toNat_shiftLeft, UInt8.toNat_toUInt64]
    change i.toNat <<< (53 % 64) % 2 ^ 64 = _
    rw [Nat.shiftLeft_eq]
    simp only [Nat.reducePow, Nat.reduceMod]
    omega
  obtain ⟨hlt, hres⟩ := mod_ok hasDegree_polynomial (i.toUInt64 <<< UInt64.ofNat (deg polynomial).toNat)
  refine ⟨_, hlt, ?_, ?_⟩
  · unfold modTable
    rw [UInt64.toNat_or, hhigh, Nat.or_comm, ← Nat.two_pow_add_eq_or_of_lt hlt, Nat.mul_comm]
  · rw [hres, hhigh, Nat.mul_comm]

/-! ## The window -/

/-- **One byte more.** -/
theorem rabinAppend_ok {w : RabinWindow} (hw : w.digest.toNat < 2 ^ 53) (b : UInt8) :
    (w.rabinAppend b).digest.toNat < 2 ^ 53 ∧ residue polynomial.toNat (w.rabinAppend b).digest.toNat =
      residue polynomial.toNat w.digest.toNat * shift polynomial.toNat ^ 8 + residue polynomial.toNat b.toNat := by
  have hb : b.toNat < 2 ^ 8 := b.toNat_lt
  set index := (w.digest >>> polynomialShift).toUInt8 with hindex
  have hidx : index.toNat = w.digest.toNat / 2 ^ 45 := by
    rw [hindex, UInt64.toNat_toUInt8, UInt64.toNat_shiftRight]
    change w.digest.toNat >>> 45 % 2 ^ 8 = _
    rw [Nat.shiftRight_eq_div_pow]
    omega
  obtain ⟨m, hm, hmod, hres⟩ := modTable_ok index
  -- the bits from 53 on are the index
  obtain ⟨low, hlow, hsplit⟩ : ∃ low < 2 ^ 53, w.digest.toNat * 2 ^ 8 + b.toNat = index.toNat * 2 ^ 53 + low :=
    ⟨w.digest.toNat % 2 ^ 45 * 2 ^ 8 + b.toNat, by omega, by omega⟩
  have hdigest : (w.rabinAppend b).digest.toNat =
      (w.digest.toNat * 2 ^ 8 + b.toNat) ^^^ (index.toNat * 2 ^ 53 + m) := by
    unfold RabinWindow.rabinAppend
    rw [UInt64.toNat_xor, toNat_shiftByte (by omega), ← hindex, hmod]
  constructor
  · have hcancel : (w.rabinAppend b).digest.toNat = low ^^^ m := by
      rw [hdigest, hsplit, mul_two_pow_add hlow, mul_two_pow_add hm, Nat.xor_comm _ low, Nat.xor_assoc,
        ← Nat.xor_assoc (index.toNat * 2 ^ 53), Nat.xor_self, Nat.zero_xor]
    rw [hcancel]
    exact Nat.xor_lt_two_pow hlow hm
  · rw [hdigest, residue_xor, mul_two_pow_add hm, residue_xor, hres, class_add_self, add_zero,
      residue_mul_two_pow_add _ _ hb]

/-- The number of a byte string, the first byte the highest. -/
def bytesNum (bytes : List UInt8) : ℕ := bytes.foldl (fun n b => n * 2 ^ 8 + b.toNat) 0

theorem bytesNum_concat (bytes : List UInt8) (b : UInt8) :
    bytesNum (bytes ++ [b]) = bytesNum bytes * 2 ^ 8 + b.toNat := by
  unfold bytesNum
  rw [List.foldl_append]
  rfl

theorem residue_bytesNum_concat (p : ℕ) (bytes : List UInt8) (b : UInt8) :
    residue p (bytesNum (bytes ++ [b])) = residue p (bytesNum bytes) * shift p ^ 8 + residue p b.toNat := by
  rw [bytesNum_concat, residue_mul_two_pow_add _ _ b.toNat_lt]

theorem residue_bytesNum_cons (p : ℕ) (o : UInt8) (bytes : List UInt8) :
    residue p (bytesNum (o :: bytes)) =
      residue p o.toNat * shift p ^ (8 * bytes.length) + residue p (bytesNum bytes) := by
  induction bytes using List.reverseRecOn with
  | nil => simp [bytesNum]
  | append_singleton bytes b ih =>
    rw [← List.cons_append, residue_bytesNum_concat, residue_bytesNum_concat, ih, List.length_append,
      List.length_singleton]
    ring

theorem bytesNum_zeros (n : ℕ) : bytesNum (List.replicate n 0) = 0 := by
  induction n with
  | zero => rfl
  | succ n ih => rw [List.replicate_succ', bytesNum_concat, ih, UInt8.toNat_zero, Nat.zero_mul]

/-- **The digest is that of the window**, whose bytes `recent` are read from `wpos` on. -/
structure WindowOK (w : RabinWindow) (recent : List UInt8) : Prop where
  length : w.window.length = WINSIZE
  pos : w.wpos < WINSIZE
  bytes : w.window.rotate w.wpos = recent
  digest_lt : w.digest.toNat < 2 ^ 53
  digest_class : residue polynomial.toNat w.digest.toNat = residue polynomial.toNat (bytesNum recent)

/-- **A byte slides in, the oldest slides out.** -/
theorem WindowOK.rabinSlide {w : RabinWindow} {recent : List UInt8} (h : WindowOK w recent) (b : UInt8) :
    WindowOK (w.rabinSlide b) (recent.tail ++ [b]) := by
  have hpos : w.wpos < w.window.length := h.length.symm ▸ h.pos
  set out := w.window[w.wpos] with hout
  have hget : w.window.getD w.wpos 0 = out := List.getD_eq_getElem _ _ hpos
  -- the window around `wpos`
  set pre := w.window.take w.wpos with hpre
  set post := w.window.drop (w.wpos + 1) with hpost
  have hprelen : pre.length = w.wpos := List.length_take_of_le hpos.le
  have hwindow : w.window = pre ++ out :: post := by
    rw [hpre, hout, hpost, ← List.drop_eq_getElem_cons, List.take_append_drop]
  have hrecent : recent = out :: (post ++ pre) := by
    have hrot := List.rotate_append_length_eq pre (out :: post)
    rwa [← hwindow, hprelen, h.bytes] at hrot
  have hset : w.window.set w.wpos b = pre ++ b :: post := by
    rw [List.set_eq_take_append_cons_drop, if_pos hpos]
  have hlen : (post ++ pre).length = 47 := by
    have hl := congrArg List.length hwindow
    rw [h.length, List.length_append, List.length_cons] at hl
    rw [List.length_append]
    unfold WINSIZE at hl
    omega
  -- without the oldest byte
  obtain ⟨hlt, hres⟩ := outTable_ok out
  have hrest : residue polynomial.toNat (w.digest ^^^ outTable out).toNat =
      residue polynomial.toNat (bytesNum (post ++ pre)) := by
    rw [UInt64.toNat_xor, residue_xor, h.digest_class, hres, hrecent, residue_bytesNum_cons, hlen, add_right_comm,
      class_add_self, zero_add]
  have hxor : (w.digest ^^^ outTable out).toNat < 2 ^ 53 := by
    rw [UInt64.toNat_xor]
    exact Nat.xor_lt_two_pow h.digest_lt hlt
  set slid : RabinWindow :=
    { window := pre ++ b :: post, wpos := (w.wpos + 1) % WINSIZE, digest := w.digest ^^^ outTable out } with hslid
  have hslide : w.rabinSlide b = slid.rabinAppend b := by
    unfold RabinWindow.rabinSlide
    rw [hget, hset]
  obtain ⟨hdig, hclass⟩ := rabinAppend_ok (w := slid) hxor b
  have hnewlen : (pre ++ b :: post).length = WINSIZE := by
    rw [← hset, List.length_set]
    exact h.length
  rw [hslide, hrecent, List.tail_cons]
  refine ⟨hnewlen, Nat.mod_lt _ (by decide), ?_, hdig, ?_⟩
  · change (pre ++ b :: post).rotate ((w.wpos + 1) % WINSIZE) = _
    have hrot := List.rotate_append_length_eq (pre ++ [b]) post
    rw [List.length_append, List.length_singleton, hprelen, List.append_assoc, List.singleton_append] at hrot
    rw [← hnewlen, List.rotate_mod, hrot, List.append_assoc]
  · rw [hclass, hrest, residue_bytesNum_concat]

/-- **After a reset**: 47 zeros and a 1. -/
theorem windowOK_reset : WindowOK .rabinReset (List.replicate 47 0 ++ [1]) := by
  have hzero : WindowOK { window := List.replicate WINSIZE 0, wpos := 0, digest := 0 } (List.replicate WINSIZE 0) :=
    ⟨List.length_replicate, by decide, List.rotate_zero _, by decide, by rw [bytesNum_zeros]; rfl⟩
  exact hzero.rabinSlide 1

/-- What a chunk of `bytes` puts into the window, after 48 zeros. -/
def rabinInput (bytes : List UInt8) : List UInt8 := List.replicate WINSIZE 0 ++ 1 :: bytes

/-- The last `n` of a list. -/
def lastOf (n : ℕ) (l : List UInt8) : List UInt8 := l.drop (l.length - n)

/-- **The direct hash**: the remainder of the last 48 bytes, as a polynomial over GF(2). -/
def directHash (bytes : List UInt8) : ℕ := rem polynomial.toNat (bytesNum (lastOf WINSIZE (rabinInput bytes)))

theorem lastOf_concat (bytes : List UInt8) (b : UInt8) :
    lastOf WINSIZE (rabinInput (bytes ++ [b])) = (lastOf WINSIZE (rabinInput bytes)).tail ++ [b] := by
  have hin : rabinInput (bytes ++ [b]) = rabinInput bytes ++ [b] := by
    unfold rabinInput
    rw [List.append_assoc, List.cons_append]
  have hlen : WINSIZE + 1 ≤ (rabinInput bytes).length := by
    unfold rabinInput
    rw [List.length_append, List.length_replicate, List.length_cons]
    omega
  have hpos : 1 ≤ WINSIZE := by decide
  have hskip : (rabinInput bytes).length + 1 - WINSIZE = (rabinInput bytes).length - WINSIZE + 1 := by omega
  unfold lastOf
  rw [hin, List.tail_drop, List.length_append, List.length_singleton, List.drop_append_of_le_length (by omega), hskip]

/-- **The window after sliding in `bytes`** since a reset has the last 48 bytes. -/
theorem windowOK_rabinDigest (bytes : List UInt8) :
    WindowOK (rabinDigest bytes) (lastOf WINSIZE (rabinInput bytes)) := by
  induction bytes using List.reverseRecOn with
  | nil => exact windowOK_reset
  | append_singleton bytes b ih =>
    have hslide : rabinDigest (bytes ++ [b]) = (rabinDigest bytes).rabinSlide b := by
      unfold rabinDigest
      rw [List.foldl_append]
      rfl
    rw [hslide, lastOf_concat]
    exact ih.rabinSlide b

/-- **The digest is the direct hash.** -/
theorem rabinDigest_eq (bytes : List UInt8) : (rabinDigest bytes).digest.toNat = directHash bytes := by
  have h := windowOK_rabinDigest bytes
  exact (hasDegree_polynomial.rem_eq_of_residue h.digest_lt h.digest_class).symm

end ChunkGrouping
