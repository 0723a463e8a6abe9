import ChunkGrouping.Lib.Batches

/-!
# C streams

A `FILE *` open for update, as its bytes and its position. A write past the end
fills the gap with zeros, a read stops at the end.

* `AtEnd`: the position is the end of the file. An appending write keeps it, and
  only adds bytes (`fwrite_atEnd`).
* `slice`: `len` bytes from an offset on. A slice that lies in a file lies in every
  extension of it (`slice_append`), which is why appended files can be read back.
* `slice_flatMap`: in a file of records of one width, record `k` is found at `k * w`.
-/

namespace CFile

/-- A stream: the bytes of the file and the position. -/
structure Stream where
  bytes : List UInt8 := []
  pos : ℕ := 0
deriving DecidableEq, Repr

/-- `ftell(f)`. -/
def ftell (f : Stream) : ℕ := f.pos

/-- `fseek(f, offset, SEEK_SET)`. -/
def seekSet (offset : ℕ) (f : Stream) : Stream := { f with pos := offset }

/-- `fseek(f, 0, SEEK_END)`. -/
def seekEnd (f : Stream) : Stream := { f with pos := f.bytes.length }

/-- `len` bytes of `bytes` from `offset` on, as far as there are any. -/
def slice (bytes : List UInt8) (offset len : ℕ) : List UInt8 := (bytes.drop offset).take len

/-- `fread` of `len` bytes: what it read, and the stream behind it. -/
def fread (len : ℕ) (f : Stream) : List UInt8 × Stream :=
  let got := slice f.bytes f.pos len
  (got, { f with pos := f.pos + got.length })

/-- `fwrite` of `out`. -/
def fwrite (out : List UInt8) (f : Stream) : Stream :=
  { bytes := (f.bytes ++ List.replicate (f.pos - f.bytes.length) 0).take f.pos ++ out ++
      f.bytes.drop (f.pos + out.length)
    pos := f.pos + out.length }

/-- The position is the end of the file. -/
def AtEnd (f : Stream) : Prop := f.pos = f.bytes.length

@[simp] theorem bytes_seekSet (offset : ℕ) (f : Stream) : (seekSet offset f).bytes = f.bytes := rfl

@[simp] theorem bytes_seekEnd (f : Stream) : (seekEnd f).bytes = f.bytes := rfl

@[simp] theorem bytes_fread (len : ℕ) (f : Stream) : (fread len f).2.bytes = f.bytes := rfl

/-- Coming back to the end restores a stream that was there. -/
theorem seekEnd_eq {f g : Stream} (hf : AtEnd f) (h : g.bytes = f.bytes) : seekEnd g = f := by
  cases f; cases g
  simp only [AtEnd] at hf h
  subst h
  simp [seekEnd, hf]

/-- **Reading somewhere and coming back** restores a stream that was at its end. -/
theorem seekEnd_fread {f : Stream} (hf : AtEnd f) (offset len : ℕ) :
    seekEnd (fread len (seekSet offset f)).2 = f := seekEnd_eq hf rfl

/-- **A write at the end appends.** -/
theorem fwrite_atEnd {f : Stream} (h : AtEnd f) (out : List UInt8) :
    fwrite out f = ⟨f.bytes ++ out, (f.bytes ++ out).length⟩ := by
  unfold AtEnd at h
  unfold fwrite
  rw [h, Nat.sub_self, List.replicate_zero, List.append_nil, List.take_length,
    List.drop_eq_nil_of_le (by omega), List.append_nil, List.length_append]

theorem fread_seekSet (offset len : ℕ) (f : Stream) :
    (fread len (seekSet offset f)).1 = slice f.bytes offset len := rfl

/-- A full slice lies in the file. -/
theorem le_of_length_slice {bytes : List UInt8} {offset len : ℕ}
    (h : (slice bytes offset len).length = len) : len = 0 ∨ offset + len ≤ bytes.length := by
  unfold slice at h; rw [List.length_take, List.length_drop] at h; omega

theorem slice_append {bytes : List UInt8} {offset len : ℕ} (h : offset + len ≤ bytes.length)
    (more : List UInt8) : slice (bytes ++ more) offset len = slice bytes offset len := by
  unfold slice
  rw [List.drop_append_of_le_length (by omega), List.take_append_of_le_length]
  rw [List.length_drop]; omega

/-- A part of a concatenation, by the lengths in front of it. -/
theorem slice_middle {pre out : List UInt8} {offset len : ℕ} (hp : pre.length = offset)
    (ho : out.length = len) (post : List UInt8) : slice (pre ++ (out ++ post)) offset len = out := by
  subst hp ho
  unfold slice; rw [List.drop_left, List.take_left]

/-! ## Records of a fixed width -/

section Records

variable {α : Type*} {enc : α → List UInt8} {w : ℕ}

/-- **Record `k` lies at `k * w`.** -/
theorem slice_flatMap (hw : ∀ a, (enc a).length = w) {rs : List α} {k : ℕ} {a : α}
    (hk : rs[k]? = some a) : slice (rs.flatMap enc) (k * w) w = enc a :=
  Batching.piece_flatMap (fun a _ => hw a) hk

/-- Behind the last record nothing is read. -/
theorem slice_flatMap_end (hw : ∀ a, (enc a).length = w) (rs : List α) :
    slice (rs.flatMap enc) (rs.length * w) w = [] := by
  unfold slice
  rw [← Batching.length_flatMap fun a _ => hw a, List.drop_length, List.take_nil]

end Records

end CFile
