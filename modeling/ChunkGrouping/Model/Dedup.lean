import ChunkGrouping.Lib.InsertMap
import ChunkGrouping.Lib.LittleEndian
import ChunkGrouping.Model.Chunk

/-!
# `Dedup` and its digest (`dedup/dedup.h`, `utils/sha1.cpp`)

`Dedup` maps the digest of a content to the id of the first chunk that had it.
-/

namespace ChunkGrouping

open InsertMap LittleEndian

namespace Sha1

/-- `rol(value, bits)`. -/
def rol (value bits : UInt32) : UInt32 := (value <<< bits) ||| (value >>> (32 - bits))

/-- The working variables, in the order in which a round names them. -/
structure Vars where
  v : UInt32
  w : UInt32
  x : UInt32
  y : UInt32
  z : UInt32
deriving DecidableEq, Repr

/-- `blk0(i)`: word `i` of the block, made big-endian in place. -/
def blk0 (i : ℕ) (block : List UInt32) : UInt32 × List UInt32 :=
  let l := block.getD i 0
  let word := (rol l 24 &&& 0xFF00FF00) ||| (rol l 8 &&& 0x00FF00FF)
  (word, block.set i word)

/-- `blk(i)`. -/
def blk (i : ℕ) (block : List UInt32) : UInt32 × List UInt32 :=
  let l (j : ℕ) := block.getD (j % 16) 0
  let word := rol (l (i + 13) ^^^ l (i + 8) ^^^ l (i + 2) ^^^ l i) 1
  (word, block.set (i % 16) word)

/-- What the rounds have in common. The next round names the variables one place on. -/
def round (f : UInt32 → UInt32 → UInt32 → UInt32) (k word : UInt32) (s : Vars) : Vars where
  v := s.z + (f s.w s.x s.y + word + k + rol s.v 5)
  w := s.v
  x := rol s.w 30
  y := s.x
  z := s.y

/-- `R0` and `R1`, which differ in the word they take. -/
def R0 : UInt32 → Vars → Vars := round (fun w x y => (w &&& (x ^^^ y)) ^^^ y) 0x5A827999

/-- `R2`. -/
def R2 : UInt32 → Vars → Vars := round (fun w x y => w ^^^ x ^^^ y) 0x6ED9EBA1

/-- `R3`. -/
def R3 : UInt32 → Vars → Vars := round (fun w x y => ((w ||| x) &&& y) ||| (w &&& x)) 0x8F1BBCDC

/-- `R4`. -/
def R4 : UInt32 → Vars → Vars := round (fun w x y => w ^^^ x ^^^ y) 0xCA62C1D6

/-- Round `i` of 80. -/
def R (i : ℕ) (s : Vars × List UInt32) : Vars × List UInt32 :=
  let (word, block) := if i < 16 then blk0 i s.2 else blk i s.2
  (if i < 20 then R0 word s.1 else if i < 40 then R2 word s.1 else if i < 60 then R3 word s.1
    else R4 word s.1, block)

/-- `SHA1Transform(state, buffer)`. -/
def transform (state : Vars) (buffer : List UInt8) : Vars :=
  let block := (List.range 16).map fun i => UInt32.ofNat (ofLE ((buffer.drop (4 * i)).take 4))
  let s := ((List.range 80).foldl (fun s i => R i s) (state, block)).1
  ⟨state.v + s.v, state.w + s.w, state.x + s.x, state.y + s.y, state.z + s.z⟩

/-- `SHA1_CTX`, after `SHA1Init`. -/
structure Ctx where
  state : Vars := ⟨0x67452301, 0xEFCDAB89, 0x98BADCFE, 0x10325476, 0xC3D2E1F0⟩
  count0 : UInt32 := 0
  count1 : UInt32 := 0
  buffer : List UInt8 := List.replicate 64 0

/-- `memcpy(&buffer[j], data, n)`. -/
def memcpy (buffer : List UInt8) (j : ℕ) (data : List UInt8) : List UInt8 :=
  buffer.take j ++ data ++ buffer.drop (j + data.length)

/-- `for (; i + 63 < len; i += 64) SHA1Transform(state, &data[i])`, on the data from `i` on. -/
def blocks : ℕ → Vars → List UInt8 → Vars × List UInt8
  | 0, state, data => (state, data)
  | fuel + 1, state, data =>
    if 63 < data.length then blocks fuel (transform state (data.take 64)) (data.drop 64) else (state, data)

/-- `SHA1Update`. -/
def update (data : List UInt8) (ctx : Ctx) : Ctx :=
  let len := UInt32.ofNat data.length
  let count0 := ctx.count0 + (len <<< 3)
  let carry : UInt32 := if count0 < ctx.count0 then 1 else 0
  let count1 := ctx.count1 + carry + (len >>> 29)
  let j := ((ctx.count0 >>> 3) &&& 63).toNat
  if 63 < j + data.length then
    let buffer := memcpy ctx.buffer j (data.take (64 - j))
    let (state, rest) := blocks data.length (transform ctx.state buffer) (data.drop (64 - j))
    { state, count0, count1, buffer := memcpy buffer 0 rest }
  else { ctx with count0, count1, buffer := memcpy ctx.buffer j data }

/-- `while ((count[0] & 504) != 448) SHA1Update(context, &c, 1)`: at most a block of zeros. -/
def pad : ℕ → Ctx → Ctx
  | 0, ctx => ctx
  | fuel + 1, ctx => if ctx.count0 &&& 504 = 448 then ctx else pad fuel (update [0] ctx)

/-- The bytes of a word, the highest first. -/
def bytes (word : UInt32) : List UInt8 := (toLE 4 word.toNat).reverse

/-- `SHA1Final`. -/
def final (ctx : Ctx) : List UInt8 :=
  let finalcount := bytes ctx.count1 ++ bytes ctx.count0
  let s := (update finalcount (pad 64 (update [128] ctx))).state
  bytes s.v ++ bytes s.w ++ bytes s.x ++ bytes s.y ++ bytes s.z

/-- `sha1_hash(data, length)`. -/
def hash (data : List UInt8) : List UInt8 := final (data.foldl (fun ctx byte => update [byte] ctx) {})

/-- `for (ii = 0; ii < length; ii += 1)`, with `fuel` tests. The counter is an `unsigned int`. -/
def hashLoop (data : List UInt8) : ℕ → UInt32 → Ctx → Option Ctx
  | 0, _, _ => none
  | fuel + 1, ii, ctx =>
    if ii.toNat < data.length then do
      let byte ← data[ii.toNat]?
      hashLoop data fuel (ii + 1) (update [byte] ctx)
    else some ctx

/-- `sha1_hash`, with `fuel` tests of its loop. -/
def sha1Hash (fuel : ℕ) (data : List UInt8) : Option (List UInt8) := (hashLoop data fuel 0 {}).map final

end Sha1

/-- The state of a `Dedup`. -/
structure Dedup where
  mp : Entries (List UInt8) ℕ := []

namespace Dedup

/-- `ProcessChunk`: the id of the first chunk with the digest of this one. `sha1_hash` gets `len()`, which is that
of the bytes here unless it is negative. -/
def processChunk (chunk : Chunk) (d : Dedup) : ℕ × Dedup :=
  let digest := Sha1.hash chunk.buf
  match get? digest d.mp with
  | some id => (id, d)
  | none => (chunk.id, { mp := set digest chunk.id d.mp })

end Dedup

end ChunkGrouping
