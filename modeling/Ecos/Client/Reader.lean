import Ecos.ByteMap
import Ecos.Object

namespace Ecos.Client
open Go Std

structure CalcBlock where
  blockIndex : ℕ
  blockStart : ℕ
  blockEnd : ℕ
  bufferStart : ℕ
  bufferEnd : ℕ
  deriving DecidableEq, Repr

/-- How large the array behind the slice of a block is. `make` gives it `Config.BlockSize` bytes,
and where these do not suffice `append` takes a larger one. -/
structure Capacity where
  blockSize : ℕ
  grown : ℕ → ℕ

def Capacity.cap (c : Capacity) (block : Bytes) : ℕ :=
  if block.length ≤ c.blockSize then c.blockSize else block.length + c.grown block.length

/-- `block[l:r]`. A slice may reach past the end of the block, where the array is zero, and panics
only past the array. -/
def Capacity.slice (c : Capacity) (block : Bytes) (l r : ℕ) : Option Bytes :=
  if l ≤ r ∧ r ≤ c.cap block then
    some (((block ++ List.replicate (c.cap block - block.length) 0).take r).drop l)
  else none

structure EcosReader where
  capacity : Capacity
  objectMeta : ObjectMeta
  curBlockIndex : ℕ := 0
  curBlockOffset : ℕ := 0
  cachedBlocks : ByteMap Bytes := ∅

/-- The loop of `calcBlocks` over the blocks from index `i` on. It gives the spans, the new
position and whether it finished before the end of the blocks. The sum in its condition is
compared as an unsigned word, so it does not wrap. -/
def calcLoop (expect : ℕ) : List BlockInfo → (i blockOffset bufferOffset : ℕ) → ℕ × ℕ →
    List CalcBlock × (ℕ × ℕ) × Bool
  | [], _, _, _, cur => ([], cur, false)
  | block :: blocks, i, blockOffset, bufferOffset, _ =>
    let pending := expect - bufferOffset
    let size := block.blockSize.toNat
    if blockOffset + pending ≥ size then
      let next := bufferOffset + (size - blockOffset)
      let (spans, cur, finish) := calcLoop expect blocks (i + 1) 0 next (i, 0)
      (⟨i, blockOffset, size, bufferOffset, next⟩ :: spans, cur, finish)
    else
      ([⟨i, blockOffset, blockOffset + pending, bufferOffset, bufferOffset + pending⟩],
        (i, blockOffset + pending), true)

/-- `calcBlocks`: the spans, the reader at its new position, and whether it returns `io.EOF`. -/
def calcBlocks (r : EcosReader) (expect : ℕ) : List CalcBlock × EcosReader × Bool :=
  let (spans, cur, finish) := calcLoop expect (r.objectMeta.blocks.drop r.curBlockIndex)
    r.curBlockIndex r.curBlockOffset 0 (r.curBlockIndex, r.curBlockOffset)
  (spans, { r with curBlockIndex := cur.1, curBlockOffset := cur.2 }, !finish)

/-- `GetBlock`: the cached block, or the fetched one, which it puts into the cache. -/
def getBlock (fetch : Bytes → Option Bytes) (cached : ByteMap Bytes) (info : BlockInfo) :
    Option (Bytes × ByteMap Bytes) :=
  match cached[info.blockId]? with
  | some block => some (block, cached)
  | none => (fetch info.blockId).map fun block => (block, cached.insert info.blockId block)

structure ReadState where
  buffer : Bytes
  cached : ByteMap Bytes
  count : ℕ

/-- The rest of a goroutine once it has its block: it copies the part of its span, counts it and
drops a block that is read to its end from the cache. -/
def copySpan (c : Capacity) (s : ReadState) (span : CalcBlock) (info : BlockInfo) (block : Bytes)
    (cached : ByteMap Bytes) : Option ReadState := do
  let src ← c.slice block span.blockStart span.blockEnd
  if span.bufferEnd ≤ s.buffer.length then
    let n := min (span.bufferEnd - span.bufferStart) src.length
    return {
      buffer := s.buffer.take span.bufferStart ++ src.take n ++ s.buffer.drop (span.bufferStart + n)
      cached := if span.blockEnd = block.length then cached.erase info.blockId else cached
      count := s.count + (span.bufferEnd - span.bufferStart) }
  else none

/-- The goroutine of one span. A failed fetch never signals the wait group, and a slice out
of range panics: both are `none`. -/
def readSpan (c : Capacity) (fetch : Bytes → Option Bytes) (blocks : List BlockInfo) (s : ReadState)
    (span : CalcBlock) : Option ReadState := do
  let info ← blocks[span.blockIndex]?
  let (block, cached) ← getBlock fetch s.cached info
  copySpan c s span info block cached

structure ReadResult where
  reader : EcosReader
  buffer : Bytes
  n : ℕ
  eof : Bool

/-- A call of `Read`: the buffer, and the order in which the goroutines of the spans run. -/
structure ReadCall where
  buffer : Bytes
  schedule : List CalcBlock → List CalcBlock

def read (fetch : Bytes → Option Bytes) (r : EcosReader) (call : ReadCall) : Option ReadResult := do
  let (spans, r, eof) := calcBlocks r call.buffer.length
  let s ← (call.schedule spans).foldlM (readSpan r.capacity fetch r.objectMeta.blocks)
    ⟨call.buffer, r.cachedBlocks, 0⟩
  return ⟨{ r with cachedBlocks := s.cached }, s.buffer, s.count, eof⟩

/-- Calls `Read` again and again up to the first `io.EOF`: all bytes returned, and whether
the end was reached. -/
def readUntilEOF (fetch : Bytes → Option Bytes) :
    EcosReader → List ReadCall → Option (Bytes × Bool)
  | _, [] => some ([], false)
  | r, call :: calls => do
    let res ← read fetch r call
    if res.eof then return (res.buffer.take res.n, true)
    else
      let (out, eof) ← readUntilEOF fetch res.reader calls
      return (res.buffer.take res.n ++ out, eof)

end Ecos.Client
