import Mathlib.Tactic

/-!
# Chunks, mapped files, chunk ids

* `Chunk` (`chunk/chunk.h`): what `buf()`, `len()` and `id()` show of a chunk.
  The length is stored in an `int`; `intOfSize` is the conversion the
  constructor makes, so a `size_t` of `2^31` or more shows other bytes than it names.
* `MappedFile` (`utils/mapped_file.h`): the bytes of a mapping, none when there is
  no mapping. Mapping an empty file fails, as `mmap` does for length 0.
* `nextId` (`chunk/chunker.h`): ids are handed out by a `uint32_t` counter.
-/

namespace ChunkGrouping

/-- The conversion of a `size_t` to an `int`. -/
def intOfSize (size : ℕ) : ℤ := (size : ℤ).bmod (2 ^ 32)

theorem intOfSize_of_lt {n : ℕ} (h : n < 2 ^ 31) : intOfSize n = n := by
  unfold intOfSize; rw [Int.bmod_def]; split <;> omega

/-- A size that does not fit in an `int` never shows all its bytes. -/
theorem intOfSize_lt {n : ℕ} (h : 2 ^ 31 ≤ n) : (intOfSize n).toNat < n := by
  unfold intOfSize; rw [Int.bmod_def]; split <;> omega

/-- A chunk, as `buf()`, `len()` and `id()` show it. A negative `len()` is not modelled: such a chunk shows no byte
here. -/
structure Chunk where
  buf : List UInt8
  id : ℕ
deriving DecidableEq, Repr

/-- `len()`. -/
def Chunk.len (c : Chunk) : ℕ := c.buf.length

/-- `Chunk::FromMemoryRef(start, size, id)`: a reference to `size` bytes of `mem` from
`start` on. `none` when they do not all lie in `mem`. What reads the chunk does so as here for
`size < 2 ^ 31`; beyond that the length may be negative, and such a chunk is shown as empty. -/
def Chunk.fromMemoryRef (mem : List UInt8) (start size id : ℕ) : Option Chunk :=
  if start + size ≤ mem.length then
    some { buf := (mem.drop start).take (intOfSize size).toNat, id }
  else none

theorem Chunk.fromMemoryRef_eq {mem : List UInt8} {start size : ℕ} (id : ℕ)
    (h : start + size ≤ mem.length) :
    Chunk.fromMemoryRef mem start size id =
      some ⟨(mem.drop start).take (intOfSize size).toNat, id⟩ := by
  simp [Chunk.fromMemoryRef, h]

/-- What a file name leads to: `none` when the file cannot be opened or mapped. -/
abbrev FileContent := Option (List UInt8)

/-- `mapped_file`: the mapped bytes, `mapped_len` of them from `mapped_addr` on. -/
structure MappedFile where
  mapped : List UInt8 := []
deriving DecidableEq, Repr

/-- `mapped_file(file_name)`. -/
def MappedFile.open : FileContent → MappedFile
  | none => {}
  | some bytes => if bytes.length = 0 then {} else { mapped := bytes }

/-- `get_maped_len()`. -/
def MappedFile.len (f : MappedFile) : ℕ := f.mapped.length

/-- `map_success()`. -/
def MappedFile.mapSuccess (f : MappedFile) : Bool := f.len ≠ 0

theorem MappedFile.open_some (bytes : List UInt8) : (MappedFile.open (some bytes)).mapped = bytes := by
  cases bytes <;> rfl

theorem MappedFile.mapSuccess_some {bytes : List UInt8} :
    (MappedFile.open (some bytes)).mapSuccess = true ↔ bytes.length ≠ 0 := by
  rw [mapSuccess, len, open_some, decide_eq_true_iff]

/-- `get_next_chunk_id()` leaves the counter here: it is a `uint32_t`. -/
def nextId (n : ℕ) : ℕ := (n + 1) % 2 ^ 32

/-- The ids of `k` chunks numbered on from counter `n`. -/
def idsFrom (n : ℕ) : ℕ → List ℕ
  | 0 => []
  | k + 1 => n :: idsFrom (nextId n) k

theorem length_idsFrom (n k : ℕ) : (idsFrom n k).length = k := by
  induction k generalizing n with
  | zero => rfl
  | succ k ih => simp [idsFrom, ih]

theorem idsFrom_add (n j k : ℕ) :
    idsFrom n (j + k) = idsFrom n j ++ idsFrom (nextId^[j] n) k := by
  induction j generalizing n with
  | zero => simp [idsFrom]
  | succ j ih =>
    rw [Nat.succ_add, idsFrom, idsFrom, ih, List.cons_append, Function.iterate_succ_apply]

theorem iterate_nextId {n : ℕ} (hn : n < 2 ^ 32) (k : ℕ) : nextId^[k] n = (n + k) % 2 ^ 32 := by
  induction k with
  | zero => exact (Nat.mod_eq_of_lt hn).symm
  | succ k ih => rw [Function.iterate_succ_apply', ih]; unfold nextId; omega

/-- **Ids are consecutive modulo `2^32`.** -/
theorem idsFrom_eq {n : ℕ} (hn : n < 2 ^ 32) (k : ℕ) :
    idsFrom n k = (List.range k).map fun i => (n + i) % 2 ^ 32 := by
  induction k with
  | zero => rfl
  | succ k ih => rw [idsFrom_add, ih, iterate_nextId hn, List.range_succ]; simp [idsFrom]

end ChunkGrouping
