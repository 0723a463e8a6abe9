import ChunkGrouping.Model.Chunker

/-!
# `RabinCDC` (`chunk/rabin_cdc.cpp`)

The rolling digest over a window of 48 bytes, the two tables the constructor
computes for it, and the chunker that scans with it. `rabinReset`, `rabinSlide`
and `rabinAppend` work on the digest part of the chunker's state, `RabinWindow`.
-/

namespace ChunkGrouping

/-- `polynomial`. -/
def polynomial : UInt64 := 0x3DA3358B4DC173

/-- `polynomial_shift = polynomial_degree - 8`. -/
def polynomialShift : UInt64 := 53 - 8

/-- `WINSIZE`. -/
def WINSIZE : ℕ := 48

/-- The loop of `deg`, `k` bits from the top left to test. -/
def degLoop (p : UInt64) : ℕ → ℤ
  | 0 => -1
  | k + 1 => if (p >>> UInt64.ofNat k) &&& 1 = 1 then k else degLoop p k

/-- `deg`: the position of the highest bit set, `-1` for 0. -/
def deg (p : UInt64) : ℤ := degLoop p 64

/-- The loop of `mod`: every round clears the highest bit of `x`, so 64 rounds are enough. -/
def modLoop (p : UInt64) : ℕ → UInt64 → UInt64
  | 0, x => x
  | k + 1, x =>
    if deg x ≥ deg p then modLoop p k (x ^^^ (p <<< UInt64.ofNat (deg x - deg p).toNat)) else x

/-- `mod`: the remainder of `x` by `p`, as polynomials over GF(2). -/
def mod (x p : UInt64) : UInt64 := modLoop p 64 x

/-- `append_byte`. -/
def appendByte (hash : UInt64) (b : UInt8) (pol : UInt64) : UInt64 :=
  mod ((hash <<< 8) ||| b.toUInt64) pol

/-- `out_table[b]`, as the constructor fills it. -/
def outTable (b : UInt8) : UInt64 :=
  (List.replicate (WINSIZE - 1) 0).foldl (fun hash z => appendByte hash z polynomial)
    (appendByte 0 b polynomial)

/-- `mod_table[b]`, as the constructor fills it. -/
def modTable (b : UInt8) : UInt64 :=
  mod (b.toUInt64 <<< UInt64.ofNat (deg polynomial).toNat) polynomial |||
    (b.toUInt64 <<< UInt64.ofNat (deg polynomial).toNat)

/-- `window`, `wpos` and `digest` of a `RabinCDC`. -/
structure RabinWindow where
  window : List UInt8
  wpos : ℕ
  digest : UInt64

namespace RabinWindow

/-- `rabin_append`. -/
def rabinAppend (w : RabinWindow) (b : UInt8) : RabinWindow :=
  let index := (w.digest >>> polynomialShift).toUInt8
  { w with digest := ((w.digest <<< 8) ||| b.toUInt64) ^^^ modTable index }

/-- `rabin_slide`. -/
def rabinSlide (w : RabinWindow) (b : UInt8) : RabinWindow :=
  let out := w.window.getD w.wpos 0
  let w := { w with
    window := w.window.set w.wpos b
    digest := w.digest ^^^ outTable out
    wpos := (w.wpos + 1) % WINSIZE }
  w.rabinAppend b

/-- `rabin_reset`. It overwrites all three fields, whatever they held. -/
def rabinReset : RabinWindow :=
  rabinSlide { window := List.replicate WINSIZE 0, wpos := 0, digest := 0 } 1

end RabinWindow

/-- The state of a `RabinCDC`. The sizes are `uint64_t`s. -/
structure RabinCDC where
  minChunkSize : ℕ
  maxChunkSize : ℕ
  rabinStopMask : UInt64
  win : RabinWindow
  file : MappedFile := {}
  fileReadPtr : ℕ := 0
  remainingFileLen : ℕ := 0
  nextChunkId : ℕ := 0

/-- The loop variables of `GetNextChunk`. -/
structure RabinScan where
  chunkSize : ℕ
  fileReadPtr : ℕ
  win : RabinWindow

namespace RabinCDC

/-- `ReinitWithFile`. -/
def reinitWithFile (content : FileContent) (s : RabinCDC) : Bool × RabinCDC :=
  let s := { s with win := .rabinReset, file := MappedFile.open content }
  if !s.file.mapSuccess then (false, s)
  else (true, { s with fileReadPtr := 0, remainingFileLen := s.file.len })

/-- The `if` of the scanning loop, after byte number `chunkSize` went into the digest. -/
def stopHere (s : RabinCDC) (chunkSize : ℕ) (digest : UInt64) : Bool :=
  (s.minChunkSize ≤ chunkSize && digest &&& s.rabinStopMask == 0) || s.maxChunkSize ≤ chunkSize

/-- `for (chunk_size = 1; chunk_size <= remaining_file_len; chunk_size++)`, `k` rounds. The flag
tells the `return` inside the loop from running off its end. -/
def scanLoop (s : RabinCDC) : ℕ → RabinScan → Option (Bool × RabinScan)
  | 0, v => some (false, v)
  | k + 1, v => do
    let b ← s.file.mapped[v.fileReadPtr]?
    let v := { v with fileReadPtr := v.fileReadPtr + 1, win := v.win.rabinSlide b }
    if s.stopHere v.chunkSize v.win.digest then some (true, v)
    else scanLoop s k { v with chunkSize := v.chunkSize + 1 }

/-- `GetNextChunk`. -/
def getNextChunk (s : RabinCDC) : Option (Option Chunk × RabinCDC) :=
  if s.remainingFileLen = 0 then some (none, s)
  else if s.remainingFileLen ≤ s.minChunkSize then do
    let chunk ← Chunk.fromMemoryRef s.file.mapped s.fileReadPtr s.remainingFileLen s.nextChunkId
    some (some chunk, { s with remainingFileLen := 0, nextChunkId := nextId s.nextChunkId })
  else do
    let (found, v) ← s.scanLoop s.remainingFileLen ⟨1, s.fileReadPtr, s.win⟩
    if found then
      let chunk ← Chunk.fromMemoryRef s.file.mapped s.fileReadPtr v.chunkSize s.nextChunkId
      some (some chunk, { s with
        win := .rabinReset
        fileReadPtr := v.fileReadPtr
        remainingFileLen := s.remainingFileLen - v.chunkSize
        nextChunkId := nextId s.nextChunkId })
    else
      -- the loop ran off the end of the file: `return nullptr`
      some (none, { s with win := v.win, fileReadPtr := v.fileReadPtr })

/-- `RabinCDC(min_ck_sz, max_ck_sz, mask)`. The constructor leaves `window`, `wpos` and
`digest` as they are in memory. -/
def new (minCkSz maxCkSz : ℕ) (mask : UInt64) (junk : RabinWindow) : RabinCDC :=
  { minChunkSize := minCkSz, maxChunkSize := maxCkSz, rabinStopMask := mask, win := junk }

instance : Chunker RabinCDC where
  reinitWithFile := reinitWithFile
  getNextChunk := getNextChunk
  remainingFileLen := remainingFileLen
  nextChunkId := nextChunkId

end RabinCDC

/-- A call of the chunker. -/
inductive RabinCall where
  | reinit (content : FileContent)
  | next

namespace RabinCDC

/-- One call, its result ignored. -/
def call (s : RabinCDC) : RabinCall → Option RabinCDC
  | .reinit content => some (s.reinitWithFile content).2
  | .next => do
    let (_, s) ← s.getNextChunk
    some s

/-- A history of calls. -/
def calls (history : List RabinCall) (s : RabinCDC) : Option RabinCDC := history.foldlM call s

end RabinCDC

end ChunkGrouping
