import Mathlib.Data.List.TakeWhile
import Mathlib.Data.Nat.Digits.Defs
import Mathlib.Tactic

/-!
# Formatted text, as `std::istream` reads it

Bytes separated by white space, in the C locale. An extraction skips white space
first and fails at the end of the text; then nothing is assigned. A number without digits
is 0, one that is too large the largest, and both fail.

* `getline_line`: lines end at a newline.
* `extractString_word`: a word without white space is extracted whole.
* `extractUnsigned_decimal`: a number is read as it was printed.
* `extractString_noSpace`: whatever is extracted has no white space.
-/

namespace TextStream

/-- `isspace`: blank, tab, newline, vertical tab, form feed and carriage return. -/
def isspace (b : UInt8) : Bool := b == 32 || (9 ≤ b && b ≤ 13)

/-- `isdigit`. -/
def isdigit (b : UInt8) : Bool := 48 ≤ b && b ≤ 57

/-- `getline`: the line and what is behind its newline. -/
def getline : List UInt8 → Option (List UInt8 × List UInt8)
  | [] => none
  | bs => some (bs.takeWhile (· != 10), (bs.dropWhile (· != 10)).tail)

/-- A `std::istringstream`: what is left of the text, `eofbit` and `failbit`. -/
structure IStringStream where
  rest : List UInt8
  eof : Bool := false
  fail : Bool := false
deriving DecidableEq, Repr

/-- The sentry of an extraction: white space is skipped. -/
def sentry (s : IStringStream) : Bool × IStringStream :=
  if s.eof || s.fail then (false, { s with fail := true })
  else match s.rest.dropWhile isspace with
    | [] => (false, ⟨[], true, true⟩)
    | b :: bs => (true, { s with rest := b :: bs })

/-- `s >> str`. None when `str` is not assigned. -/
def extractString (s : IStringStream) : Option (List UInt8) × IStringStream :=
  match sentry s with
  | (false, s) => (none, s)
  | (true, s) =>
    let rest := s.rest.dropWhile (!isspace ·)
    (some (s.rest.takeWhile (!isspace ·)), { s with rest, eof := rest.isEmpty })

/-- An optional sign: whether it is a minus, and what is behind it. -/
def takeSign : List UInt8 → Bool × List UInt8
  | 45 :: bs => (true, bs)
  | 43 :: bs => (false, bs)
  | bs => (false, bs)

/-- The number digits stand for. -/
def ofDigits (ds : List UInt8) : ℕ := ds.foldl (fun v d => 10 * v + (d.toNat - 48)) 0

/-- `s >> n` for an unsigned `n` of `w` bits. None when `n` is not assigned. A minus sign negates. -/
def extractUnsigned (w : ℕ) (s : IStringStream) : Option ℕ × IStringStream :=
  match sentry s with
  | (false, s) => (none, s)
  | (true, s) =>
    let (negative, bs) := takeSign s.rest
    let digits := bs.takeWhile isdigit
    let rest := bs.dropWhile isdigit
    let s := { s with rest, eof := rest.isEmpty }
    if digits = [] then (some 0, { s with fail := true })
    else if 2 ^ w ≤ ofDigits digits then (some (2 ^ w - 1), { s with fail := true })
    else (some (if negative then (2 ^ w - ofDigits digits) % 2 ^ w else ofDigits digits), s)

/-- `out << n`: the decimal digits of `n`. -/
def decimal (n : ℕ) : List UInt8 :=
  if n = 0 then [48] else (Nat.digits 10 n).reverse.map fun d => UInt8.ofNat (48 + d)

/-! ## Lines -/

theorem takeWhile_stop {p : UInt8 → Bool} {l : List UInt8} (hl : ∀ b ∈ l, p b) {b : UInt8} (hb : ¬ p b)
    (rest : List UInt8) : (l ++ b :: rest).takeWhile p = l := by
  rw [List.takeWhile_append_of_pos hl, List.takeWhile_cons_of_neg hb, List.append_nil]

theorem dropWhile_stop {p : UInt8 → Bool} {l : List UInt8} (hl : ∀ b ∈ l, p b) {b : UInt8} (hb : ¬ p b)
    (rest : List UInt8) : (l ++ b :: rest).dropWhile p = b :: rest := by
  rw [List.dropWhile_append_of_pos hl, List.dropWhile_cons_of_neg hb]

/-- **A line** is read up to its newline. -/
theorem getline_line {l : List UInt8} (hl : 10 ∉ l) (rest : List UInt8) :
    getline (l ++ 10 :: rest) = some (l, rest) := by
  have hne : ∀ b ∈ l, (b != 10) = true := fun b hb => bne_iff_ne.2 fun h10 => hl (h10 ▸ hb)
  have hlist : getline (l ++ 10 :: rest) = some ((l ++ 10 :: rest).takeWhile (· != 10),
      ((l ++ 10 :: rest).dropWhile (· != 10)).tail) := by
    cases l <;> rfl
  rw [hlist, takeWhile_stop hne (by simp), dropWhile_stop hne (by simp), List.tail_cons]

/-! ## Words -/

/-- Whatever is extracted has no white space. -/
theorem extractString_noSpace {s : IStringStream} {w : List UInt8} (h : (extractString s).1 = some w) :
    ∀ b ∈ w, isspace b = false := by
  unfold extractString at h
  split at h
  · cases h
  · obtain rfl := Option.some.inj h
    intro b hb
    simpa using List.mem_takeWhile_imp hb

/-- **A word** behind at most one blank is extracted whole. -/
theorem extractString_word {w : List UInt8} (hw : ∀ b ∈ w, isspace b = false) (hne : w ≠ []) {b : UInt8}
    (hb : isspace b = true) (rest : List UInt8) :
    extractString { rest := w ++ b :: rest } = (some w, { rest := b :: rest }) := by
  obtain ⟨a, w, rfl⟩ := List.exists_cons_of_ne_nil hne
  have ha := hw a List.mem_cons_self
  have hsentry : sentry { rest := a :: w ++ b :: rest } = (true, { rest := a :: w ++ b :: rest }) := by
    unfold sentry
    rw [List.cons_append, List.dropWhile_cons_of_neg (by simp [ha])]
    rfl
  have hnot : ∀ x ∈ a :: w, (!isspace x) = true := fun x hx => by simp [hw x hx]
  unfold extractString
  rw [hsentry]
  simp only
  rw [takeWhile_stop hnot (by simp [hb]), dropWhile_stop hnot (by simp [hb])]
  rfl

/-! ## Numbers -/

theorem isdigit_not_isspace {b : UInt8} (hb : isdigit b = true) : isspace b = false := by
  unfold isdigit at hb
  unfold isspace
  simp only [Bool.and_eq_true, decide_eq_true_eq, UInt8.le_iff_toNat_le] at hb
  simp only [Bool.or_eq_false_iff, Bool.and_eq_false_iff, decide_eq_false_iff_not, UInt8.le_iff_toNat_le,
    beq_eq_false_iff_ne, ne_eq, ← UInt8.toNat_inj]
  have h48 : (48 : UInt8).toNat = 48 := rfl
  have h57 : (57 : UInt8).toNat = 57 := rfl
  have h32 : (32 : UInt8).toNat = 32 := rfl
  have h13 : (13 : UInt8).toNat = 13 := rfl
  omega

/-- A digit is no sign. -/
theorem takeSign_digit {b : UInt8} (hb : isdigit b = true) (bs : List UInt8) :
    takeSign (b :: bs) = (false, b :: bs) := by
  unfold takeSign
  split
  · next h =>
    obtain ⟨rfl, -⟩ := List.cons.inj h
    exact absurd hb (by decide)
  · next h =>
    obtain ⟨rfl, -⟩ := List.cons.inj h
    exact absurd hb (by decide)
  · rfl

theorem digit_toNat {d : ℕ} (hd : d < 10) : (UInt8.ofNat (48 + d)).toNat = 48 + d := by
  rw [UInt8.toNat_ofNat', Nat.mod_eq_of_lt (by omega)]

theorem decimal_ne_nil (n : ℕ) : decimal n ≠ [] := by
  unfold decimal
  split
  · simp
  · next hn => simp [Nat.digits_ne_nil_iff_ne_zero.2 hn]

theorem isdigit_decimal {n : ℕ} {b : UInt8} (hb : b ∈ decimal n) : isdigit b = true := by
  unfold decimal at hb
  split at hb
  · rw [List.mem_singleton.1 hb]
    decide
  · obtain ⟨d, hd, rfl⟩ := List.mem_map.1 hb
    have hlt : d < 10 := Nat.digits_lt_base (by omega) (List.mem_reverse.1 hd)
    unfold isdigit
    simp only [Bool.and_eq_true, decide_eq_true_eq, UInt8.le_iff_toNat_le, digit_toNat hlt]
    have h48 : (48 : UInt8).toNat = 48 := rfl
    have h57 : (57 : UInt8).toNat = 57 := rfl
    omega

/-- The digits of `n` stand for `n`. -/
theorem ofDigits_decimal (n : ℕ) : ofDigits (decimal n) = n := by
  unfold decimal
  split
  · next hn => rw [hn]; rfl
  · have hfold : ∀ ds : List ℕ, (∀ d ∈ ds, d < 10) →
        ofDigits (ds.reverse.map fun d => UInt8.ofNat (48 + d)) = Nat.ofDigits 10 ds := by
      intro ds hds
      induction ds with
      | nil => rfl
      | cons d ds ih =>
        have hd := hds d List.mem_cons_self
        have hrest := ih fun x hx => hds x (List.mem_cons_of_mem _ hx)
        unfold ofDigits at hrest ⊢
        rw [List.reverse_cons, List.map_append, List.foldl_append, hrest, Nat.ofDigits_cons]
        simp only [List.map_cons, List.map_nil, List.foldl_cons, List.foldl_nil, digit_toNat hd]
        simp
        omega
    rw [hfold _ fun d hd => Nat.digits_lt_base (by omega) hd, Nat.ofDigits_digits]

/-- **A number** behind a blank is read as it was printed. -/
theorem extractUnsigned_decimal {w n : ℕ} (hn : n < 2 ^ w) (rest : List UInt8)
    (hrest : ∀ b bs, rest = b :: bs → isdigit b = false) :
    extractUnsigned w { rest := 32 :: (decimal n ++ rest) } =
      (some n, { rest, eof := rest.isEmpty }) := by
  obtain ⟨d, ds, hds⟩ := List.exists_cons_of_ne_nil (decimal_ne_nil n)
  have hdig : ∀ b ∈ decimal n, isdigit b = true := fun b hb => isdigit_decimal hb
  have hd : isdigit d = true := hdig d (hds ▸ List.mem_cons_self)
  have hsentry : sentry { rest := 32 :: (decimal n ++ rest) } = (true, { rest := decimal n ++ rest }) := by
    unfold sentry
    rw [hds, List.cons_append, List.dropWhile_cons_of_pos (by decide),
      List.dropWhile_cons_of_neg (by simp [isdigit_not_isspace hd])]
    rfl
  have hsign : takeSign (decimal n ++ rest) = (false, decimal n ++ rest) := by
    rw [hds, List.cons_append]
    exact takeSign_digit hd _
  have htake : (decimal n ++ rest).takeWhile isdigit = decimal n := by
    cases rest with
    | nil =>
      rw [List.append_nil]
      exact List.takeWhile_eq_self_iff.2 hdig
    | cons b bs => exact takeWhile_stop hdig (by simp [hrest b bs rfl]) bs
  have hdrop : (decimal n ++ rest).dropWhile isdigit = rest := by
    cases rest with
    | nil =>
      rw [List.append_nil]
      exact List.dropWhile_eq_nil_iff.2 hdig
    | cons b bs => exact dropWhile_stop hdig (by simp [hrest b bs rfl]) bs
  unfold extractUnsigned
  rw [hsentry]
  simp only [hsign, htake, hdrop, ofDigits_decimal]
  rw [if_neg (decimal_ne_nil n), if_neg (by omega)]
  rfl

end TextStream
