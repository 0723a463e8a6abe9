import ChunkGrouping.Lib.BlockStream
import ChunkGrouping.Lib.LittleEndian

/-!
# The secure hash standard: SHA-1

What SHA-1 is by the standard, over words of 32 bits: a message is padded to full blocks of 64 bytes,
each block is expanded to a schedule of 80 words, and 80 rounds compress it into a chaining value of
five words.

* `swap_ofBytes`: two rotations and two masks turn the bytes of a word around.
* `choose_eq`, `majority_eq`: the usual ways to save an operation.
-/

namespace SecureHash

/-- A word. -/
abbrev Word := BitVec 32

/-! ## Words -/

/-- The word of four bytes, the highest first. -/
def ofBytes (a b e d : BitVec 8) : Word := a ++ b ++ e ++ d

theorem getElem_ofBytes (a b e d : BitVec 8) (i : ℕ) (h : i < 32) :
    (ofBytes a b e d)[i] =
      if h₁ : i < 8 then d[i] else if h₂ : i < 16 then e[i - 8] else if h₃ : i < 24 then b[i - 16]
      else a[i - 24] := by
  show (a ++ b ++ e ++ d)[i] = _
  rw [BitVec.getElem_append]
  refine dite_congr rfl (fun _ => rfl) fun h₁ => ?_
  rw [BitVec.getElem_append]
  refine dite_congr (by rw [Nat.sub_lt_iff_lt_add (by omega)]) (fun _ => rfl) fun h₂ => ?_
  rw [BitVec.getElem_append]
  refine dite_congr (by rw [Nat.sub_sub, Nat.sub_lt_iff_lt_add (by omega)]) (fun _ => ?_) fun _ => ?_
  · simp only [Nat.sub_sub]
  · simp only [Nat.sub_sub]

theorem toNat_ofBytes (a b e d : BitVec 8) :
    (ofBytes a b e d).toNat = d.toNat + 256 * (e.toNat + 256 * (b.toNat + 256 * a.toNat)) := by
  have hb := b.isLt
  have he := e.isLt
  have hd := d.isLt
  show (a ++ b ++ e ++ d).toNat = _
  rw [BitVec.toNat_append, BitVec.toNat_append, BitVec.toNat_append, ← Nat.shiftLeft_add_eq_or_of_lt (by omega),
    ← Nat.shiftLeft_add_eq_or_of_lt (by omega), ← Nat.shiftLeft_add_eq_or_of_lt (by omega)]
  simp only [Nat.shiftLeft_eq]
  omega

/-- **Bytes turned around** by two rotations and two masks. -/
theorem swap_ofBytes (a b e d : BitVec 8) :
    ((ofBytes d e b a).rotateLeft 24 &&& 0xFF00FF00#32) ||| ((ofBytes d e b a).rotateLeft 8 &&& 0x00FF00FF#32) =
      ofBytes a b e d := by
  apply BitVec.eq_of_getElem_eq
  intro i hi
  simp only [BitVec.getElem_or, BitVec.getElem_and, BitVec.getElem_rotateLeft, getElem_ofBytes]
  interval_cases i <;> simp

/-- `Ch`, with two operations on the last word. -/
theorem choose_eq (x y z : Word) : (x &&& (y ^^^ z)) ^^^ z = (x &&& y) ^^^ (~~~x &&& z) := by
  ext i hi
  simp only [BitVec.getElem_xor, BitVec.getElem_and, BitVec.getElem_not]
  cases x[i] <;> cases y[i] <;> cases z[i] <;> rfl

/-- `Maj`, with disjunctions. -/
theorem majority_eq (x y z : Word) :
    ((x ||| y) &&& z) ||| (x &&& y) = (x &&& y) ^^^ (x &&& z) ^^^ (y &&& z) := by
  ext i hi
  simp only [BitVec.getElem_xor, BitVec.getElem_and, BitVec.getElem_or]
  cases x[i] <;> cases y[i] <;> cases z[i] <;> rfl

/-! ## Compression -/

/-- A chaining value, or the working variables. -/
structure Chain where
  a : Word
  b : Word
  c : Word
  d : Word
  e : Word
deriving DecidableEq, Repr

/-- The function of round `t`: `Ch`, `Parity`, `Maj`, `Parity`. -/
def f (t : ℕ) (x y z : Word) : Word :=
  if t < 20 then (x &&& y) ^^^ (~~~x &&& z)
  else if t < 40 then x ^^^ y ^^^ z
  else if t < 60 then (x &&& y) ^^^ (x &&& z) ^^^ (y &&& z)
  else x ^^^ y ^^^ z

/-- The constant of round `t`. -/
def K (t : ℕ) : Word :=
  if t < 20 then 0x5A827999#32 else if t < 40 then 0x6ED9EBA1#32 else if t < 60 then 0x8F1BBCDC#32 else 0xCA62C1D6#32

/-- Word `t` of a block. -/
def blockWord (block : List UInt8) (t : ℕ) : Word :=
  ofBytes (block.getD (4 * t) 0).toBitVec (block.getD (4 * t + 1) 0).toBitVec (block.getD (4 * t + 2) 0).toBitVec
    (block.getD (4 * t + 3) 0).toBitVec

/-- **The message schedule.** -/
def W (block : List UInt8) (t : ℕ) : Word :=
  if t < 16 then blockWord block t
  else (W block (t - 3) ^^^ W block (t - 8) ^^^ W block (t - 14) ^^^ W block (t - 16)).rotateLeft 1

theorem W_of_lt {block : List UInt8} {t : ℕ} (h : t < 16) : W block t = blockWord block t := by
  rw [W, if_pos h]

theorem W_add (block : List UInt8) (t : ℕ) :
    W block (t + 16) = (W block (t + 13) ^^^ W block (t + 8) ^^^ W block (t + 2) ^^^ W block t).rotateLeft 1 := by
  rw [W, if_neg (by omega)]
  rfl

/-- Round `t`. -/
def round (block : List UInt8) (t : ℕ) (h : Chain) : Chain where
  a := h.a.rotateLeft 5 + f t h.b h.c h.d + h.e + K t + W block t
  b := h.a
  c := h.b.rotateLeft 30
  d := h.c
  e := h.d

/-- The first `n` rounds. -/
def rounds (block : List UInt8) : ℕ → Chain → Chain
  | 0, h => h
  | n + 1, h => round block n (rounds block n h)

/-- **A block is compressed.** -/
def compress (h : Chain) (block : List UInt8) : Chain :=
  let r := rounds block 80 h
  ⟨h.a + r.a, h.b + r.b, h.c + r.c, h.d + r.d, h.e + r.e⟩

/-! ## Messages -/

/-- The initial chaining value. -/
def initial : Chain := ⟨0x67452301#32, 0xEFCDAB89#32, 0x98BADCFE#32, 0x10325476#32, 0xC3D2E1F0#32⟩

/-- The low `w` bytes of a number, the highest first. -/
def bigEndian (w n : ℕ) : List UInt8 := (LittleEndian.toLE w n).reverse

/-- The zeros between the message and its length. -/
def zeros (n : ℕ) : ℕ := (119 - n % 64) % 64

/-- **A padded message**: a one, zeros, and the length in bits. -/
def pad (message : List UInt8) : List UInt8 :=
  message ++ [128] ++ List.replicate (zeros message.length) 0 ++ bigEndian 8 (8 * message.length)

/-- **The digest.** -/
def sha1 (message : List UInt8) : List UInt8 :=
  let h := BlockStream.absorb compress 64 initial (pad message)
  bigEndian 4 h.a.toNat ++ bigEndian 4 h.b.toNat ++ bigEndian 4 h.c.toNat ++ bigEndian 4 h.d.toNat ++
    bigEndian 4 h.e.toNat

/-- The high bytes first. -/
theorem bigEndian_add (v w n : ℕ) : bigEndian (v + w) n = bigEndian v (n / 256 ^ w) ++ bigEndian w n := by
  have hlow := LittleEndian.take_toLE w (v + w) n
  have hhigh := LittleEndian.drop_toLE w (v + w) n
  rw [Nat.min_eq_left (Nat.le_add_left w v)] at hlow
  rw [Nat.add_sub_cancel] at hhigh
  unfold bigEndian
  rw [← List.reverse_append, ← hlow, ← hhigh, List.take_append_drop]

/-- They see no more of the number than they hold. -/
theorem bigEndian_mod (w n : ℕ) : bigEndian w (n % 256 ^ w) = bigEndian w n := by
  have htoLE : ∀ w n : ℕ, LittleEndian.toLE w (n % 256 ^ w) = LittleEndian.toLE w n := by
    intro w
    induction w with
    | zero => intro n; rfl
    | succ w ih =>
      intro n
      have hlow : UInt8.ofNat (n % 256 ^ (w + 1)) = UInt8.ofNat n := by
        apply UInt8.toNat_inj.1
        rw [UInt8.toNat_ofNat', UInt8.toNat_ofNat', pow_succ']
        exact Nat.mod_mul_right_mod n 256 (256 ^ w)
      rw [LittleEndian.toLE, LittleEndian.toLE, hlow, pow_succ', Nat.mod_mul_right_div_self, ih]
  unfold bigEndian
  rw [htoLE]

end SecureHash
