import Ecos.ByteMap
import Ecos.Object

namespace Ecos.Client
open Go Std

inductive BlockStatus where
  | READING
  | UPLOADING
  | FAILED
  | FINISHED
  | ABORTED
  deriving DecidableEq, Repr

structure LocalChunk where
  data : Bytes
  freeSize : ℕ
  deriving DecidableEq, Repr

/-- `chunk.data[:len(chunk.data)-chunk.freeSize]` -/
def LocalChunk.content (c : LocalChunk) : Bytes := c.data.take (c.data.length - c.freeSize)

structure Block where
  info : BlockInfo
  status : BlockStatus
  chunks : List LocalChunk
  blockHashType : HashType := .off
  deriving DecidableEq, Repr

structure Factory where
  chunkSize : ℕ
  bucketInfo : BucketInfo
  ring : Mapper
  /-- what the `i`-th call of `AcquireMultiple` with this count returns -/
  acquireMultiple : ℕ → ℕ → Option (List LocalChunk)
  genBlockId : ℕ → Bytes
  genBlockPG : BlockInfo → UInt64
  /-- hex digest of the bytes fed into a hash of this type -/
  hexSum : HashType → Bytes → Bytes
  now : Timestamp

/-- `BlockSize / ChunkSize`, the number of chunks of a block -/
def Factory.perBlock (f : Factory) : ℕ := f.bucketInfo.config.blockSize.toNat / f.chunkSize

structure EcosWriter where
  key : Bytes
  term : UInt64
  status : BlockStatus := .READING
  partObject : Bool := false
  curChunk : Option LocalChunk := none
  reserveChunks : List LocalChunk := []
  chunkCount : ℕ := 0
  blocks : ExtTreeMap ℕ Block compare := ∅
  curBlock : Option Block := none
  blockCount : ℕ := 0
  writeSize : UInt64 := 0
  /-- the bytes that went into `objHash` -/
  hashed : Bytes := []
  /-- calls of `AcquireMultiple` so far -/
  acquired : ℕ := 0
  /-- chunks given back to the pool -/
  released : List LocalChunk := []
  /-- upload goroutines that were started, by block number -/
  uploads : List ℕ := []
  /-- blocks that `Upload` has sent, with their IDs -/
  sent : List (Bytes × Bytes) := []

variable (f : Factory)

def getNewBlock : Block := ⟨{ blockId := [], blockSize := 0 }, .READING, [], .off⟩

def commitCurBlock (w : EcosWriter) : EcosWriter :=
  let w := { w with released := w.released ++ w.reserveChunks, reserveChunks := [] }
  match w.curBlock with
  | none => w
  | some block =>
    { w with
      uploads := w.uploads ++ [w.blockCount]
      blocks := w.blocks.insert w.blockCount block
      curBlock := none }

/-- `getCurBlock` with the block it returns. -/
def getCurBlock (w : EcosWriter) : EcosWriter × Block :=
  let w := match w.curBlock with
    | some block => if block.chunks.length = f.perBlock then commitCurBlock w else w
    | none => w
  match w.curBlock with
  | some block => (w, block)
  | none =>
    ({ w with blockCount := w.blockCount + 1, curBlock := some getNewBlock }, getNewBlock)

def reserve (w : EcosWriter) : Option (List LocalChunk) :=
  if w.reserveChunks = [] then f.acquireMultiple w.acquired f.perBlock else some w.reserveChunks

/-- `getCurChunk`: the current chunk, or the next reserved one. An empty acquisition makes
`reserveChunks[0]` panic. -/
def getCurChunk (w : EcosWriter) : Except Errno (EcosWriter × LocalChunk) :=
  match w.curChunk with
  | some chunk => .ok (w, chunk)
  | none =>
    match reserve f w with
    | none => .error (.other "acquire")
    | some [] => .error (.other "index out of range")
    | some (chunk :: rest) =>
      .ok ({ w with
        curChunk := some chunk
        reserveChunks := rest
        chunkCount := w.chunkCount + 1
        acquired := if w.reserveChunks = [] then w.acquired + 1 else w.acquired }, chunk)

def commitCurChunk (w : EcosWriter) : EcosWriter :=
  match w.curChunk with
  | none => w
  | some chunk =>
    let (w, block) := getCurBlock f w
    let block := { block with chunks := block.chunks ++ [chunk] }
    let w := { w with curBlock := some block }
    let w := if block.chunks.length = f.perBlock then commitCurBlock w else w
    { w with curChunk := none }

/-- `copy(chunk.data[ChunkSize-chunk.freeSize:], p)` with the number of bytes copied. -/
def fillChunk (chunk : LocalChunk) (p : Bytes) : LocalChunk × ℕ :=
  let start := f.chunkSize - chunk.freeSize
  let n := min (chunk.data.length - start) p.length
  (⟨chunk.data.take start ++ p.take n ++ chunk.data.drop (start + n), chunk.freeSize - n⟩, n)

def putChunk (w : EcosWriter) (chunk : LocalChunk) : EcosWriter :=
  let w := { w with curChunk := some chunk }
  if chunk.freeSize = 0 then commitCurChunk f w else w

/-- The loop of `Write` over the pending bytes, with the number of bytes written. Every round
takes at least one byte while chunks have room, so `len(p)` rounds are enough. -/
def writeLoop : ℕ → EcosWriter → Bytes → EcosWriter × ℕ × Option Errno
  | _, w, [] => (w, 0, none)
  | 0, w, _ :: _ => (w, 0, some (.other "no progress"))
  | fuel + 1, w, p@(_ :: _) =>
    match getCurChunk f w with
    | .error e => (w, 0, some e)
    | .ok (w, chunk) =>
      let (chunk, n) := fillChunk f chunk p
      let (w, offset, err) := writeLoop fuel (putChunk f w chunk) (p.drop n)
      (w, n + offset, err)

/-- `Write`. An error of the pool leaves `writeSize` and the hash as they were. -/
def write (w : EcosWriter) (p : Bytes) : EcosWriter × ℕ × Option Errno :=
  if w.partObject then (w, 0, some .methodNotAllowed)
  else if w.status ≠ .READING then (w, 0, some .illegalStatus)
  else
    let (w, offset, err) := writeLoop f p.length w p
    match err with
    | some e => (w, offset, some e)
    | none =>
      let w := { w with writeSize := w.writeSize + UInt64.ofNat offset }
      let w := if f.bucketInfo.config.objectHashType ≠ .off
        then { w with hashed := w.hashed ++ p.take offset } else w
      if offset ≠ p.length then (w, offset, some .incompatibleSize) else (w, p.length, none)

end Ecos.Client
