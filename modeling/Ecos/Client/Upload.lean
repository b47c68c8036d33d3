import Ecos.Client.Writer

namespace Ecos.Client
open Go Std

variable (f : Factory)

def Block.genBlockHash (b : Block) : Except Errno Bytes :=
  if b.status ≠ .UPLOADING then .error .illegalStatus
  else if b.blockHashType = .off then .ok []
  else .ok (f.hexSum b.blockHashType (b.chunks.flatMap LocalChunk.data))

/-- `updateBlockInfo` of the block with number `i`. -/
def Block.updateBlockInfo (i : ℕ) (b : Block) : Except Errno Block := do
  let size := if b.info.partId = 0
    then UInt64.ofNat (b.chunks.map fun c => c.data.length - c.freeSize).sum
    else b.info.blockSize
  let hash ← b.genBlockHash f
  let id := if b.blockHashType ≠ .off then hash else f.genBlockId i
  let info := { b.info with blockSize := size, blockHash := hash, blockId := id }
  return { b with info := { info with pgId := f.genBlockPG info } }

def Block.close (i : ℕ) (b : Block) : Except Errno Block :=
  if b.info.partId ≠ 0 then .ok b
  else if b.chunks = [] then .ok b
  else if b.status ≠ .READING then .error .repeatedClose
  else { b with status := .UPLOADING }.updateBlockInfo f i

/-- The bytes that `Upload` sends. -/
def Block.bytes (b : Block) : Bytes := b.chunks.flatMap LocalChunk.content

/-- The goroutine `uploadBlock(i, block)` from its start to the send on `finishedBlocks`,
`uploaded` being whether `Upload` returned nil. -/
def uploadBlock (w : EcosWriter) (i : ℕ) (uploaded : Bool) : EcosWriter :=
  match w.blocks[i]? with
  | none => w
  | some block =>
    match block.close f i with
    | .error _ => w
    | .ok block =>
      { w with
        sent := w.sent ++ [(block.info.blockId, block.bytes)]
        released := w.released ++ block.chunks.map fun c => { c with freeSize := f.chunkSize }
        blocks := w.blocks.insert i
          { block with status := if uploaded then .FINISHED else .FAILED, chunks := [] } }

/-- Receives `n` completions; `none` where it blocks for ever. -/
def receiveFinished : ℕ → EcosWriter → List (ℕ × Bool) → Option EcosWriter
  | 0, w, _ => some w
  | _ + 1, _, [] => none
  | n + 1, w, (i, uploaded) :: completions =>
    receiveFinished n (uploadBlock f w i uploaded) completions

/-- `genMeta`. The block of a number that is missing is a nil pointer. -/
def genMeta (w : EcosWriter) : Option ObjectMeta := do
  let blocks ← (List.range' 1 w.blocks.size).mapM fun i => w.blocks[i]?.map Block.info
  return {
    objId := genObjectId f.ring f.bucketInfo w.key
    objSize := w.writeSize
    updateTime := f.now
    objHash := if f.bucketInfo.config.objectHashType ≠ .off
      then f.hexSum f.bucketInfo.config.objectHashType w.hashed else []
    pgId := genObjPgID f.ring f.bucketInfo w.key 10
    blocks := blocks
    term := w.term }

/-- How one round of `uploadMeta` can end. -/
inductive SubmitReply where
  | ok
  | noAgent (e : Errno)
  | termNotMatch (update : Option Errno)
  | failed (e : Errno)
  deriving DecidableEq, Repr

/-- `uploadMeta`: its error and how often `SubmitMeta` was called; `none` while it retries. -/
def uploadMeta : List SubmitReply → Option (Option Errno × ℕ)
  | [] => none
  | .ok :: _ => some (none, 1)
  | .noAgent e :: _ => some (some e, 0)
  | .failed e :: _ => some (some e, 1)
  | .termNotMatch (some e) :: _ => some (some e, 1)
  | .termNotMatch none :: replies => (uploadMeta replies).map fun (err, n) => (err, n + 1)

structure CloseResult where
  writer : EcosWriter
  err : Option Errno
  /-- the arguments of the calls of `SubmitMeta` -/
  submitted : List ObjectMeta

/-- The writer in which `Close` starts to wait. -/
def committedAll (w : EcosWriter) : EcosWriter :=
  { commitCurBlock (commitCurChunk f w) with status := .UPLOADING }

/-- `Close`, given the completions in the order of their arrival and the replies to
`SubmitMeta`; `none` where it does not return. -/
def close (w : EcosWriter) (completions : List (ℕ × Bool)) (replies : List SubmitReply) :
    Option CloseResult :=
  if w.status ≠ .READING then some ⟨w, some .repeatedClose, []⟩
  else do
    let w := committedAll f w
    let w ← receiveFinished f w.blockCount w completions
    let objectMeta ← genMeta f w
    let (err, n) ← uploadMeta replies
    match err with
    | some e => return ⟨w, some e, List.replicate n objectMeta⟩
    | none => return ⟨{ w with status := .FINISHED }, none, List.replicate n objectMeta⟩

end Ecos.Client
