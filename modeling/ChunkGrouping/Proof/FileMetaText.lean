import ChunkGrouping.Model.FileMetaText

/-!
# What the file of `FileMeta` records gives back

* `readAll_writeAll`: the reader returns one record for each written, the one extracted
  from its line.
* `extract_line`: that is the record written when its name has no white space.
* `metaFile_roundtrip_iff`: the file is read back exactly when no name has any.
-/

namespace ChunkGrouping

open TextStream

/-- The line of a record, without its newline. -/
def MetaLine.line (m : MetaLine UInt32) : List UInt8 :=
  m.fileName ++ 32 :: (decimal m.startChunkId.toNat ++ 32 :: decimal m.endChunkId.toNat)

variable {m : MetaLine UInt32} {ms : List (MetaLine UInt32)}

/-- The file is the lines. -/
theorem writeAll_eq (ms : List (MetaLine UInt32)) :
    FileMetaWriter.writeAll ms = ms.flatMap fun m => m.line ++ [10] := by
  have hfold : ∀ (ms : List (MetaLine UInt32)) (out : List UInt8),
      ms.foldl (fun out m => FileMetaWriter.write m out) out = out ++ ms.flatMap fun m => m.line ++ [10] := by
    intro ms
    induction ms with
    | nil => intro out; simp
    | cons m ms ih =>
      intro out
      rw [List.foldl_cons, ih, List.flatMap_cons, FileMetaWriter.write, MetaLine.line]
      simp
  exact hfold ms []

theorem decimal_noNewline (n : ℕ) : 10 ∉ decimal n := by
  intro hmem
  exact absurd (isdigit_decimal hmem) (by decide)

/-- The line ends where its newline is. -/
theorem line_noNewline (hm : 10 ∉ m.fileName) : 10 ∉ m.line := by
  unfold MetaLine.line
  simp [hm, decimal_noNewline]

theorem getline_writeAll (hm : 10 ∉ m.fileName) (ms : List (MetaLine UInt32)) :
    getline (FileMetaWriter.writeAll (m :: ms)) = some (m.line, FileMetaWriter.writeAll ms) := by
  rw [writeAll_eq, writeAll_eq, List.flatMap_cons, List.append_assoc, List.singleton_append]
  exact getline_line (line_noNewline hm) _

theorem length_writeAll (m : MetaLine UInt32) (ms : List (MetaLine UInt32)) :
    (FileMetaWriter.writeAll ms).length < (FileMetaWriter.writeAll (m :: ms)).length := by
  rw [writeAll_eq, writeAll_eq, List.flatMap_cons, List.length_append, List.length_append]
  simp only [List.length_cons, List.length_nil]
  omega

/-- **The reader** returns what it extracts from each line, and stops. -/
theorem readAll_writeAll (hms : ∀ m ∈ ms, 10 ∉ m.fileName) :
    FileMetaReader.readAll (FileMetaWriter.writeAll ms) =
      some (ms.map fun m => (MetaLine.fresh.extract m.line).1) := by
  have hloop : ∀ (ms : List (MetaLine UInt32)) (fuel : ℕ), (∀ m ∈ ms, 10 ∉ m.fileName) →
      (FileMetaWriter.writeAll ms).length < fuel →
      FileMetaReader.readLoop fuel (FileMetaWriter.writeAll ms) =
        some (ms.map fun m => (MetaLine.fresh.extract m.line).1) := by
    intro ms
    induction ms with
    | nil =>
      intro fuel _ hf
      obtain ⟨k, rfl⟩ : ∃ k, fuel = k + 1 := ⟨fuel - 1, by omega⟩
      rfl
    | cons m ms ih =>
      intro fuel hms hf
      obtain ⟨k, rfl⟩ : ∃ k, fuel = k + 1 := ⟨fuel - 1, by omega⟩
      have hlt := length_writeAll m ms
      rw [FileMetaReader.readLoop, FileMetaReader.next, getline_writeAll (hms m List.mem_cons_self)]
      simp only
      rw [ih k (fun x hx => hms x (List.mem_cons_of_mem _ hx)) (by omega)]
      rfl
  exact hloop ms _ hms (by omega)

/-- **The record is extracted from its line** when its name is a word. -/
theorem extract_line (hne : m.fileName ≠ []) (hsp : ∀ b ∈ m.fileName, isspace b = false)
    (old : MetaLine (Option UInt32)) :
    old.extract m.line = (m.assigned, { rest := [], eof := true }) := by
  unfold MetaLine.extract MetaLine.line
  have hstart := extractUnsigned_decimal (w := 32) (n := m.startChunkId.toNat) m.startChunkId.toNat_lt
    (32 :: decimal m.endChunkId.toNat) (by rintro b bs ⟨⟩; decide)
  have hend := extractUnsigned_decimal (w := 32) (n := m.endChunkId.toNat) m.endChunkId.toNat_lt []
    (by rintro b bs ⟨⟩)
  rw [List.append_nil] at hend
  rw [extractString_word hsp hne (by decide)]
  simp only
  rw [hstart]
  simp only [List.isEmpty_cons]
  rw [hend]
  simp [MetaLine.assigned]

/-- A name extracted from a line has no white space. -/
theorem extract_noSpace (line : List UInt8) :
    ∀ b ∈ (MetaLine.fresh.extract line).1.fileName, isspace b = false := by
  unfold MetaLine.extract
  cases hw : (extractString { rest := line }).1 with
  | none => simp [hw, MetaLine.fresh]
  | some w =>
    have := extractString_noSpace hw
    simpa [hw] using this

/-- **The search** finds the first record with the name. -/
theorem getFileMetaByName_writeAll (hne : ∀ m ∈ ms, m.fileName ≠ []) (hnl : ∀ m ∈ ms, 10 ∉ m.fileName)
    (hsp : ∀ m ∈ ms, ∀ b ∈ m.fileName, isspace b = false) (fileName : List UInt8) :
    getFileMetaByName (FileMetaWriter.writeAll ms) fileName =
      some ((ms.find? (·.fileName = fileName)).map MetaLine.assigned) := by
  have hloop : ∀ (ms : List (MetaLine UInt32)) (fuel : ℕ) (old : MetaLine (Option UInt32)),
      (∀ m ∈ ms, m.fileName ≠ [] ∧ 10 ∉ m.fileName ∧ ∀ b ∈ m.fileName, isspace b = false) →
      (FileMetaWriter.writeAll ms).length < fuel →
      getByNameLoop fileName fuel old (FileMetaWriter.writeAll ms) =
        some ((ms.find? (·.fileName = fileName)).map MetaLine.assigned) := by
    intro ms
    induction ms with
    | nil =>
      intro fuel old _ hf
      obtain ⟨k, rfl⟩ : ∃ k, fuel = k + 1 := ⟨fuel - 1, by omega⟩
      rfl
    | cons m ms ih =>
      intro fuel old hms hf
      obtain ⟨k, rfl⟩ : ∃ k, fuel = k + 1 := ⟨fuel - 1, by omega⟩
      obtain ⟨hm₁, hm₂, hm₃⟩ := hms m List.mem_cons_self
      have hlt := length_writeAll m ms
      rw [getByNameLoop, getline_writeAll hm₂]
      simp only [extract_line hm₁ hm₃ old, MetaLine.assigned, true_and]
      by_cases hname : m.fileName = fileName
      · rw [if_pos hname, List.find?_cons_of_pos (by simpa using hname)]
        rfl
      · rw [if_neg hname, List.find?_cons_of_neg (by simpa using hname)]
        exact ih k _ (fun x hx => hms x (List.mem_cons_of_mem _ hx)) (by omega)
  exact hloop ms _ .fresh (fun m hm => ⟨hne m hm, hnl m hm, hsp m hm⟩) (by omega)

/-- **The records are read back**, and found by name. -/
structure RoundTrip (ms : List (MetaLine UInt32)) : Prop where
  read : FileMetaReader.readAll (FileMetaWriter.writeAll ms) = some (ms.map MetaLine.assigned)
  byName : ∀ fileName, getFileMetaByName (FileMetaWriter.writeAll ms) fileName =
    some ((ms.find? (·.fileName = fileName)).map MetaLine.assigned)

/-- **Exactly when no name has white space** is the file read back as it was written. -/
theorem metaFile_roundtrip_iff (hne : ∀ m ∈ ms, m.fileName ≠ []) (hnl : ∀ m ∈ ms, 10 ∉ m.fileName) :
    RoundTrip ms ↔ ∀ m ∈ ms, ∀ b ∈ m.fileName, isspace b = false := by
  constructor
  · intro hrt m hm
    have hread := hrt.read
    rw [readAll_writeAll hnl, Option.some.injEq, List.map_inj_left] at hread
    have hname := congrArg MetaLine.fileName (hread m hm)
    have hno := extract_noSpace m.line
    rwa [hname] at hno
  · intro hsp
    refine ⟨?_, getFileMetaByName_writeAll hne hnl hsp⟩
    rw [readAll_writeAll hnl, Option.some.injEq]
    refine List.map_congr_left fun m hm => ?_
    rw [extract_line (hne m hm) (hsp m hm)]

/-- Two files, the second with the name of the first. -/
theorem metaFile_roundtrip_iff_two : RoundTrip [⟨[97, 47, 98], 0, 3⟩, ⟨[97, 47, 98], 4, 4⟩] :=
  (metaFile_roundtrip_iff (by decide) (by decide)).2 (by decide +kernel)

/-- The name `a b`: the reader returns `a`, a start of 0 and an end nobody wrote, and a search for the
name finds nothing. -/
theorem metaFile_blank : let ms : List (MetaLine UInt32) := [⟨[97, 32, 98], 3, 4⟩]
    FileMetaReader.readAll (FileMetaWriter.writeAll ms) = some [⟨[97], some 0, none⟩] ∧
      getFileMetaByName (FileMetaWriter.writeAll ms) [97, 32, 98] = some none ∧ ¬ RoundTrip ms := by
  intro ms
  have hread : FileMetaReader.readAll (FileMetaWriter.writeAll ms) = some [⟨[97], some 0, none⟩] := by
    decide +kernel
  refine ⟨hread, by decide +kernel, fun hrt => ?_⟩
  exact absurd (hread.symm.trans hrt.read) (by decide)

end ChunkGrouping
