import ChunkGrouping.Lib.SecureHash
import ChunkGrouping.Model.Dedup

/-!
# `sha1_hash` is SHA-1

`SHA1Transform` expands the schedule in the 16 words of the block itself, one word a round.
`SHA1Update` takes the message in pieces of any length, `SHA1Final` pads it with three more pieces.
The loop of `sha1_hash` counts in an `unsigned int`, the length is a `uint64_t`.

* `blk_ok`, `transform_eq`: a block.
* `CtxOK`: the context after a message; `update_ok` for one more piece.
* `sha1_hash_fips`: the digest, and when there is one.
-/

namespace ChunkGrouping

open LittleEndian BlockStream SecureHash

namespace Sha1

/-! ## A block -/

/-- The working variables as the standard names them. -/
def Vars.chain (s : Vars) : Chain := ⟨s.v.toBitVec, s.w.toBitVec, s.x.toBitVec, s.y.toBitVec, s.z.toBitVec⟩

/-- The words of a block as they are copied from its bytes. -/
def rawWords (buffer : List UInt8) : List UInt32 :=
  (List.range 16).map fun i => UInt32.ofNat (ofLE ((buffer.drop (4 * i)).take 4))

variable {buffer : List UInt8} {block : List UInt32} {i t : ℕ}

theorem take_four (h : 4 * t + 3 < buffer.length) :
    (buffer.drop (4 * t)).take 4 =
      [buffer.getD (4 * t) 0, buffer.getD (4 * t + 1) 0, buffer.getD (4 * t + 2) 0, buffer.getD (4 * t + 3) 0] := by
  apply List.ext_getElem
  · rw [List.length_take, List.length_drop]
    simp only [List.length_cons, List.length_nil]
    omega
  · intro k hk hk'
    simp only [List.length_cons, List.length_nil] at hk'
    rw [List.getElem_take, List.getElem_drop]
    interval_cases k
    · simp [List.getD_eq_getElem?_getD, List.getElem?_eq_getElem (show 4 * t < buffer.length by omega)]
    · simp [List.getD_eq_getElem?_getD, List.getElem?_eq_getElem (show 4 * t + 1 < buffer.length by omega)]
    · simp [List.getD_eq_getElem?_getD, List.getElem?_eq_getElem (show 4 * t + 2 < buffer.length by omega)]
    · simp [List.getD_eq_getElem?_getD, List.getElem?_eq_getElem (show 4 * t + 3 < buffer.length by omega)]

/-- A word as it is copied has its bytes the wrong way around. -/
theorem rawWords_getD (hlen : buffer.length = 64) (ht : t < 16) :
    ((rawWords buffer).getD t 0).toBitVec =
      ofBytes (buffer.getD (4 * t + 3) 0).toBitVec (buffer.getD (4 * t + 2) 0).toBitVec
        (buffer.getD (4 * t + 1) 0).toBitVec (buffer.getD (4 * t) 0).toBitVec := by
  have hget : (rawWords buffer).getD t 0 = UInt32.ofNat (ofLE ((buffer.drop (4 * t)).take 4)) := by
    simp [rawWords, List.getD_eq_getElem?_getD, ht]
  apply BitVec.eq_of_toNat_eq
  rw [hget, take_four (by omega), toNat_ofBytes]
  simp only [ofLE, UInt32.toNat_toBitVec, UInt8.toNat_toBitVec, Nat.mul_zero, Nat.add_zero]
  apply UInt32.toNat_ofNat_of_lt'
  have h₀ := (buffer.getD (4 * t) 0).toNat_lt
  have h₁ := (buffer.getD (4 * t + 1) 0).toNat_lt
  have h₂ := (buffer.getD (4 * t + 2) 0).toNat_lt
  have h₃ := (buffer.getD (4 * t + 3) 0).toNat_lt
  show _ < 2 ^ 32
  omega

/-- **The block before round `i`**: the last words of the schedule up to here, at their places modulo 16, and
the words that have not been turned around. -/
structure BlockOK (buffer : List UInt8) (i : ℕ) (block : List UInt32) : Prop where
  length : block.length = 16
  done : ∀ t, t < i → i ≤ t + 16 → (block.getD (t % 16) 0).toBitVec = W buffer t
  raw : ∀ t, i ≤ t → t < 16 → block.getD t 0 = (rawWords buffer).getD t 0

theorem getD_set {j : ℕ} (hj : j < block.length) (x : UInt32) (k : ℕ) :
    (block.set j x).getD k 0 = if k = j then x else block.getD k 0 := by
  simp only [List.getD_eq_getElem?_getD, List.getElem?_set]
  by_cases h : j = k
  · subst h
    simp [hj]
  · rw [if_neg h, if_neg (Ne.symm h)]

/-- **`blk0`** makes the word. -/
theorem blk0_ok (hlen : buffer.length = 64) (h : BlockOK buffer i block) (hi : i < 16) :
    (blk0 i block).1.toBitVec = W buffer i ∧ BlockOK buffer (i + 1) (blk0 i block).2 := by
  have hword : (blk0 i block).1.toBitVec = W buffer i := by
    rw [W_of_lt hi, blockWord, ← swap_ofBytes, ← rawWords_getD hlen hi, ← h.raw i le_rfl hi]
    rfl
  refine ⟨hword, by rw [blk0, List.length_set]; exact h.length, fun t ht hle => ?_, fun t ht hlt => ?_⟩
  · rw [blk0, getD_set (by rw [h.length]; exact hi), Nat.mod_eq_of_lt (by omega)]
    by_cases hti : t = i
    · subst hti
      rw [if_pos rfl]
      exact hword
    · rw [if_neg hti]
      have hdone := h.done t (by omega) (by omega)
      rwa [Nat.mod_eq_of_lt (by omega)] at hdone
  · rw [blk0, getD_set (by rw [h.length]; exact hi), if_neg (by omega)]
    exact h.raw t (by omega) hlt

/-- **`blk`** makes the word from four of those before, and puts it where the oldest was. -/
theorem blk_ok (h : BlockOK buffer i block) (hi : 16 ≤ i) :
    (blk i block).1.toBitVec = W buffer i ∧ BlockOK buffer (i + 1) (blk i block).2 := by
  obtain ⟨n, rfl⟩ : ∃ n, i = n + 16 := ⟨i - 16, by omega⟩
  have hold : ∀ k t, t < n + 16 → n ≤ t → k % 16 = t % 16 → (block.getD (k % 16) 0).toBitVec = W buffer t :=
    fun k t ht hle hk => by rw [hk]; exact h.done t ht (by omega)
  have hword : (blk (n + 16) block).1.toBitVec = W buffer (n + 16) := by
    rw [W_add, ← hold (n + 16 + 13) (n + 13) (by omega) (by omega) (by omega),
      ← hold (n + 16 + 8) (n + 8) (by omega) (by omega) (by omega),
      ← hold (n + 16 + 2) (n + 2) (by omega) (by omega) (by omega),
      ← hold (n + 16) n (by omega) (by omega) (by omega)]
    rfl
  refine ⟨hword, by rw [blk, List.length_set]; exact h.length, fun t ht hle => ?_, fun t ht hlt => by omega⟩
  rw [blk, getD_set (by rw [h.length]; omega)]
  by_cases htn : t = n + 16
  · subst htn
    rw [if_pos rfl]
    exact hword
  · rw [if_neg (by omega)]
    exact h.done t (by omega) (by omega)

/-- **A round.** -/
theorem R_ok (hlen : buffer.length = 64) {s : Vars × List UInt32} (h : BlockOK buffer i s.2) :
    (R i s).1.chain = SecureHash.round buffer i s.1.chain ∧ BlockOK buffer (i + 1) (R i s).2 := by
  obtain ⟨s, block⟩ := s
  -- the word of the round, wherever it is from
  obtain ⟨hword, hblock⟩ : (if i < 16 then blk0 i block else blk i block).1.toBitVec = W buffer i ∧
      BlockOK buffer (i + 1) (if i < 16 then blk0 i block else blk i block).2 := by
    split
    · exact blk0_ok hlen h (by assumption)
    · exact blk_ok h (by omega)
  refine ⟨?_, hblock⟩
  have hround : ∀ (g : UInt32 → UInt32 → UInt32 → UInt32) (k word : UInt32),
      (g s.w s.x s.y).toBitVec = SecureHash.f i s.w.toBitVec s.x.toBitVec s.y.toBitVec →
      k.toBitVec = K i → word.toBitVec = W buffer i →
      (round g k word s).chain = SecureHash.round buffer i s.chain := by
    intro g k word hg hk hw
    unfold SecureHash.round
    rw [← hk, ← hw]
    refine congrArg (fun a => Chain.mk a s.v.toBitVec (s.w.toBitVec.rotateLeft 30) s.x.toBitVec s.y.toBitVec) ?_
    show s.z.toBitVec + ((g s.w s.x s.y).toBitVec + word.toBitVec + k.toBitVec + s.v.toBitVec.rotateLeft 5) = _
    rw [hg]
    show _ = s.v.toBitVec.rotateLeft 5 + SecureHash.f i s.w.toBitVec s.x.toBitVec s.y.toBitVec + s.z.toBitVec +
      k.toBitVec + word.toBitVec
    ac_rfl
  unfold R
  dsimp only
  generalize (if i < 16 then blk0 i block else blk i block) = p at hword ⊢
  obtain ⟨word, block'⟩ := p
  dsimp only at hword ⊢
  split
  · rename_i h₁
    refine hround _ _ _ ?_ (by simp [K, h₁]) hword
    simp only [SecureHash.f, h₁, if_true]
    exact choose_eq _ _ _
  split
  · rename_i h₁ h₂
    exact hround _ _ _ (by simp [SecureHash.f, h₁, h₂]) (by simp [K, h₁, h₂]) hword
  split
  · rename_i h₁ h₂ h₃
    refine hround _ _ _ ?_ (by simp [K, h₁, h₂, h₃]) hword
    simp only [SecureHash.f, h₁, h₂, h₃, if_true, if_false]
    exact majority_eq _ _ _
  · rename_i h₁ h₂ h₃
    exact hround _ _ _ (by simp [SecureHash.f, h₁, h₂, h₃]) (by simp [K, h₁, h₂, h₃]) hword

/-- **`SHA1Transform`** compresses a block. -/
theorem transform_eq (state : Vars) (hlen : buffer.length = 64) :
    (transform state buffer).chain = compress state.chain buffer := by
  have hrounds : ∀ n, let s := (List.range n).foldl (fun s i => R i s) (state, rawWords buffer)
      s.1.chain = rounds buffer n state.chain ∧ BlockOK buffer n s.2 := by
    intro n
    induction n with
    | zero => exact ⟨rfl, by simp [rawWords], fun t ht => by omega, fun _ _ _ => rfl⟩
    | succ n ih =>
      rw [List.range_succ, List.foldl_append]
      obtain ⟨hchain, hblock⟩ := R_ok hlen ih.2
      exact ⟨by rw [rounds, ← ih.1]; exact hchain, hblock⟩
  have h := (hrounds 80).1
  unfold compress
  rw [← h]
  rfl

/-! ## Messages -/

/-- **The context after a message**: the full blocks are compressed, the others are in the buffer, and the counters
are the length in bits. -/
structure CtxOK (ctx : Ctx) (message : List UInt8) : Prop where
  state : ctx.state.chain = absorb compress 64 initial message
  length : ctx.buffer.length = 64
  buffer : ctx.buffer.take (message.length % 64) = rest 64 message
  count0 : ctx.count0.toNat = 8 * message.length % 2 ^ 32
  count1 : ctx.count1.toNat = 8 * message.length / 2 ^ 32 % 2 ^ 32

variable {ctx : Ctx} {message data : List UInt8}

theorem ctxOK_new : CtxOK {} [] where
  state := rfl
  length := rfl
  buffer := rfl
  count0 := rfl
  count1 := rfl

theorem length_memcpy {j : ℕ} (hlen : buffer.length = 64) (h : j + data.length ≤ 64) :
    (memcpy buffer j data).length = 64 := by
  unfold memcpy
  simp only [List.length_append, List.length_take, List.length_drop]
  omega

theorem take_memcpy (data : List UInt8) {j : ℕ} (hj : j ≤ buffer.length) :
    (memcpy buffer j data).take (j + data.length) = buffer.take j ++ data := by
  unfold memcpy
  rw [List.take_append_of_le_length (by rw [List.length_append, List.length_take]; omega)]
  exact List.take_of_length_le (by rw [List.length_append, List.length_take]; omega)

/-- **The loop over full blocks.** -/
theorem blocks_eq (fuel : ℕ) : ∀ (state : Vars) (data : List UInt8), data.length ≤ 64 * fuel →
    (blocks fuel state data).1.chain = absorb compress 64 state.chain data ∧ (blocks fuel state data).2 = rest 64 data := by
  induction fuel with
  | zero =>
    intro state data h
    obtain rfl : data = [] := List.length_eq_zero_iff.1 (by omega)
    exact ⟨rfl, rfl⟩
  | succ fuel ih =>
    intro state data h
    unfold blocks
    split
    · rename_i hlt
      have hblock : (data.take 64).length = 64 := by rw [List.length_take]; omega
      obtain ⟨hstate, hrest⟩ := ih (transform state (data.take 64)) (data.drop 64) (by rw [List.length_drop]; omega)
      rw [transform_eq state hblock] at hstate
      rw [hstate, hrest, ← absorb_block (by omega) hblock, ← rest_block (by omega) hblock, List.take_append_drop]
      exact ⟨rfl, rfl⟩
    · rename_i hlt
      rw [absorb_of_lt (by omega), rest_of_lt (by omega)]
      exact ⟨rfl, rfl⟩

/-- **The counters** after a piece. -/
theorem count_update {c₀ c₁ : UInt32} {n len : ℕ} (h₀ : c₀.toNat = 8 * n % 2 ^ 32)
    (h₁ : c₁.toNat = 8 * n / 2 ^ 32 % 2 ^ 32) (hlen : len < 2 ^ 32) :
    (c₀ + UInt32.ofNat len <<< 3).toNat = 8 * (n + len) % 2 ^ 32 ∧
      (c₁ + (if c₀ + UInt32.ofNat len <<< 3 < c₀ then (1 : UInt32) else 0) + UInt32.ofNat len >>> 29).toNat =
        8 * (n + len) / 2 ^ 32 % 2 ^ 32 := by
  have hl : (UInt32.ofNat len).toNat = len := UInt32.toNat_ofNat_of_lt' hlen
  have hshl : (UInt32.ofNat len <<< 3).toNat = 8 * len % 2 ^ 32 := by
    rw [UInt32.toNat_shiftLeft, hl]
    show len <<< 3 % 2 ^ 32 = _
    rw [Nat.shiftLeft_eq, Nat.mul_comm]
  have hshr : (UInt32.ofNat len >>> 29).toNat = len / 2 ^ 29 := by
    rw [UInt32.toNat_shiftRight, hl]
    exact Nat.shiftRight_eq_div_pow len 29
  have hsum : (c₀ + UInt32.ofNat len <<< 3).toNat = 8 * (n + len) % 2 ^ 32 := by
    rw [UInt32.toNat_add, h₀, hshl]
    omega
  refine ⟨hsum, ?_⟩
  rw [UInt32.toNat_add, UInt32.toNat_add, h₁, hshr]
  have hcarry : c₀ + UInt32.ofNat len <<< 3 < c₀ ↔ 8 * (n + len) % 2 ^ 32 < 8 * n % 2 ^ 32 := by
    rw [UInt32.lt_iff_toNat_lt, hsum, h₀]
  by_cases hlt : c₀ + UInt32.ofNat len <<< 3 < c₀
  · have hwrap := hcarry.1 hlt
    rw [if_pos hlt, show (1 : UInt32).toNat = 1 from rfl]
    omega
  · have hwrap := mt hcarry.2 hlt
    rw [if_neg hlt, show (0 : UInt32).toNat = 0 from rfl]
    omega

/-- Where the buffer goes on. -/
theorem offset_eq {c₀ : UInt32} {n : ℕ} (h₀ : c₀.toNat = 8 * n % 2 ^ 32) : ((c₀ >>> 3) &&& 63).toNat = n % 64 := by
  rw [UInt32.toNat_and, UInt32.toNat_shiftRight, h₀]
  show (8 * n % 2 ^ 32) >>> 3 &&& 2 ^ 6 - 1 = _
  rw [Nat.and_two_pow_sub_one_eq_mod, Nat.shiftRight_eq_div_pow]
  omega

/-- **`SHA1Update`** goes on with a piece of the message. -/
theorem update_ok (h : CtxOK ctx message) (hdata : data.length < 2 ^ 32) : CtxOK (update data ctx) (message ++ data) := by
  obtain ⟨hc₀, hc₁⟩ := count_update h.count0 h.count1 hdata
  have hmod : message.length % 64 < 64 := Nat.mod_lt _ (by omega)
  have hlen : (message ++ data).length = message.length + data.length := List.length_append
  rw [← hlen] at hc₀ hc₁
  unfold update
  dsimp only
  rw [offset_eq h.count0]
  split
  · -- the piece fills the block
    rename_i hfull
    obtain ⟨hstate, hrest⟩ := absorb_append_of_le (f := compress) (by omega : 0 < 64)
      (show 64 ≤ message.length % 64 + data.length by omega) initial
    set n := 64 - message.length % 64 with hn
    have htake : (data.take n).length = n := by rw [List.length_take]; omega
    have hblock : memcpy ctx.buffer (message.length % 64) (data.take n) = rest 64 message ++ data.take n := by
      have hin : message.length % 64 ≤ ctx.buffer.length := by rw [h.length]; omega
      have hfill := take_memcpy (data.take n) hin
      rw [h.buffer, htake] at hfill
      refine (List.take_of_length_le ?_).symm.trans hfill
      rw [length_memcpy h.length (by rw [htake]; omega)]
      omega
    have hblen : (rest 64 message ++ data.take n).length = 64 := by
      rw [List.length_append, length_rest, htake]
      omega
    obtain ⟨hblocks, hleft⟩ := blocks_eq data.length (transform ctx.state (rest 64 message ++ data.take n)) (data.drop n)
      (by rw [List.length_drop]; omega)
    rw [transform_eq _ hblen, h.state] at hblocks
    rw [hblock]
    have hmlen : (rest 64 (data.drop n)).length = (message ++ data).length % 64 := by
      rw [← hrest, length_rest]
    have hcopy := take_memcpy (rest 64 (data.drop n)) (Nat.zero_le (rest 64 message ++ data.take n).length)
    rw [Nat.zero_add, hmlen, List.take_zero, List.nil_append] at hcopy
    refine ⟨hblocks.trans hstate.symm, ?_, ?_, hc₀, hc₁⟩
    · rw [hleft]
      exact length_memcpy hblen (by rw [hmlen]; omega)
    · rw [hleft, hrest]
      exact hcopy
  · -- it does not
    rename_i hshort
    obtain ⟨hstate, hrest⟩ := absorb_append_of_lt (f := compress)
      (show message.length % 64 + data.length < 64 by omega) initial
    have hin : message.length % 64 ≤ ctx.buffer.length := by rw [h.length]; omega
    have hcopy := take_memcpy data hin
    refine ⟨h.state.trans hstate.symm, length_memcpy h.length (by omega), ?_, hc₀, hc₁⟩
    rw [hrest, ← h.buffer, ← hcopy, hlen]
    congr 1
    omega

/-- **The padding loop** adds zeros up to the length. -/
theorem pad_ok (fuel : ℕ) : ∀ {ctx : Ctx} {message : List UInt8} {k : ℕ}, CtxOK ctx message → k ≤ fuel → k < 64 →
    (message.length + k) % 64 = 56 → CtxOK (pad fuel ctx) (message ++ List.replicate k 0) := by
  induction fuel with
  | zero =>
    intro ctx message k h hk _ _
    obtain rfl : k = 0 := by omega
    simpa [pad] using h
  | succ fuel ih =>
    intro ctx message k h hk hlt hmod
    have hcond : ctx.count0 &&& 504 = 448 ↔ message.length % 64 = 56 := by
      rw [← UInt32.toNat_inj, UInt32.toNat_and, h.count0]
      have h₁ : 8 * message.length % 2 ^ 32 = (message.length % 2 ^ 29) <<< 3 := by
        rw [Nat.shiftLeft_eq]
        omega
      have h₂ : (504 : UInt32).toNat = (2 ^ 6 - 1) <<< 3 := rfl
      rw [h₁, h₂, ← Nat.shiftLeft_and_distrib, Nat.and_two_pow_sub_one_eq_mod, Nat.shiftLeft_eq]
      show _ = 448 ↔ _
      omega
    unfold pad
    split
    · rename_i hdone
      have h56 := hcond.1 hdone
      obtain rfl : k = 0 := by omega
      simpa using h
    · rename_i hmore
      have h56 := mt hcond.2 hmore
      obtain ⟨k, rfl⟩ : ∃ k', k = k' + 1 := ⟨k - 1, by omega⟩
      have hzero := update_ok h (show ([0] : List UInt8).length < 2 ^ 32 by decide)
      have hrest := ih hzero (k := k) (by omega) (by omega) (by rw [List.length_append, List.length_singleton]; omega)
      rwa [List.append_assoc] at hrest

/-- The bytes of a counter or of a word of the digest. -/
theorem bytes_eq (word : UInt32) : bytes word = bigEndian 4 word.toNat := rfl

/-- **`SHA1Final`** pads the message and gives the digest. -/
theorem final_eq (h : CtxOK ctx message) : final ctx = sha1 message := by
  have hone := update_ok h (show ([128] : List UInt8).length < 2 ^ 32 by decide)
  have hlen : (message ++ [128]).length = message.length + 1 := by simp
  have hzeros := pad_ok 64 hone (k := zeros message.length) (by unfold zeros; omega) (by unfold zeros; omega)
    (by rw [hlen]; unfold zeros; omega)
  -- the two counters are the length
  have hcount : bytes ctx.count1 ++ bytes ctx.count0 = bigEndian 8 (8 * message.length) := by
    rw [bytes_eq, bytes_eq, h.count0, h.count1, bigEndian_add 4 4]
    exact congrArg₂ (· ++ ·) (bigEndian_mod 4 _) (bigEndian_mod 4 _)
  have hall := update_ok hzeros (show (bytes ctx.count1 ++ bytes ctx.count0).length < 2 ^ 32 by simp [bytes])
  rw [hcount] at hall
  have hstate := hall.state
  unfold final sha1
  dsimp only
  rw [hcount, show SecureHash.pad message =
    message ++ [128] ++ List.replicate (zeros message.length) 0 ++ bigEndian 8 (8 * message.length) from rfl, ← hstate]
  rfl

/-- **A message in pieces.** -/
theorem foldl_update (pieces : List (List UInt8)) (h : ∀ piece ∈ pieces, piece.length < 2 ^ 32) :
    CtxOK (pieces.foldl (fun ctx piece => update piece ctx) {}) pieces.flatten := by
  induction pieces using List.reverseRecOn with
  | nil => exact ctxOK_new
  | append_singleton pieces piece ih =>
    rw [List.foldl_append, List.flatten_append, List.flatten_singleton]
    exact update_ok (ih fun p hp => h p (List.mem_append_left _ hp)) (h piece (by simp))

/-- Byte by byte. -/
theorem foldl_byte (data : List UInt8) : CtxOK (data.foldl (fun ctx byte => update [byte] ctx) {}) data := by
  have h := foldl_update (data.map fun byte => [byte]) (by simp)
  rw [List.foldl_map] at h
  rwa [← List.flatMap_def, List.flatMap_singleton'] at h

/-- The loop, from any byte on. -/
theorem hashLoop_of_lt (hdata : data.length < 2 ^ 32) (fuel : ℕ) : ∀ {ii : UInt32} {ctx : Ctx}, ii.toNat ≤ data.length →
    data.length < fuel + ii.toNat →
    hashLoop data fuel ii ctx = some ((data.drop ii.toNat).foldl (fun ctx byte => update [byte] ctx) ctx) := by
  induction fuel with
  | zero => intro ii ctx hle hlt; omega
  | succ fuel ih =>
    intro ii ctx hle hlt
    unfold hashLoop
    split
    · rename_i hii
      have hnext : (ii + 1).toNat = ii.toNat + 1 := by
        rw [UInt32.toNat_add, show (1 : UInt32).toNat = 1 from rfl, Nat.mod_eq_of_lt (by omega)]
      rw [List.getElem?_eq_getElem hii, Option.bind_eq_bind, Option.bind_some, ih (by omega) (by omega), hnext,
        List.drop_eq_getElem_cons hii, List.foldl_cons]
    · rename_i hii
      rw [List.drop_of_length_le (by omega)]
      rfl

/-- Too many bytes for the counter. -/
theorem hashLoop_of_le (hdata : 2 ^ 32 ≤ data.length) (fuel : ℕ) : ∀ {ii : UInt32} {ctx : Ctx},
    hashLoop data fuel ii ctx = none := by
  induction fuel with
  | zero => intro ii ctx; rfl
  | succ fuel ih =>
    intro ii ctx
    have hii : ii.toNat < data.length := lt_of_lt_of_le ii.toNat_lt hdata
    unfold hashLoop
    rw [if_pos hii, List.getElem?_eq_getElem hii]
    exact ih

/-- **`sha1_hash` is SHA-1.** `SHA1Update` may be given a message in pieces of any lengths for which `j + len` is
below `2^32`: the digest is the one of the standard. `sha1_hash` gives it byte by byte: for data shorter than
`2^32` bytes the loop ends, and the digest is the one that `dedup_` keeps; for longer data the counter wraps and the
loop does not end. -/
theorem sha1_hash_fips :
    (∀ pieces : List (List UInt8), (∀ piece ∈ pieces, piece.length + 63 < 2 ^ 32) →
      final (pieces.foldl (fun ctx piece => update piece ctx) {}) = sha1 pieces.flatten) ∧
    ∀ data : List UInt8,
      (data.length < 2 ^ 32 → (∀ fuel, data.length < fuel → sha1Hash fuel data = some (sha1 data)) ∧
        hash data = sha1 data) ∧
      (2 ^ 32 ≤ data.length → ∀ fuel, sha1Hash fuel data = none) := by
  refine ⟨fun pieces h => final_eq (foldl_update pieces fun piece hp => Nat.lt_of_add_right_lt (h piece hp)),
    fun data => ⟨fun hdata => ⟨fun fuel hfuel => ?_, final_eq (foldl_byte data)⟩, fun hdata fuel => ?_⟩⟩
  · unfold sha1Hash
    rw [hashLoop_of_lt hdata fuel (Nat.zero_le _) (by show data.length < fuel + 0; omega), Option.map_some,
      ← final_eq (foldl_byte data)]
    rfl
  · unfold sha1Hash
    rw [hashLoop_of_le hdata fuel]
    rfl

/-- The first test vector: "abc", at once, in two pieces and byte by byte. -/
theorem sha1_hash_fips_abc :
    final (update [99] (update [97, 98] {})) =
        [0xA9, 0x99, 0x3E, 0x36, 0x47, 0x06, 0x81, 0x6A, 0xBA, 0x3E, 0x25, 0x71, 0x78, 0x50, 0xC2, 0x6C, 0x9C, 0xD0, 0xD8,
          0x9D] ∧
      sha1Hash 4 [97, 98, 99] = some (final (update [99] (update [97, 98] {}))) := by
  have hpieces := sha1_hash_fips.1 [[97, 98], [99]] (by decide)
  have hbytes := ((sha1_hash_fips.2 [97, 98, 99]).1 (by decide)).1 4 (by decide)
  exact ⟨by decide +kernel, hbytes.trans (congrArg some hpieces.symm)⟩

end Sha1

end ChunkGrouping
