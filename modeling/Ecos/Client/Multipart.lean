import Ecos.Client.Upload
import Ecos.Logic.Machine
import Mathlib.Data.Finset.Card
import Mathlib.Data.List.AList

namespace Ecos.Client.Multipart
open Go Logic

inductive Entry where
  | closeMultiPart
  | completeMultipartUploadJob
  | completeMultipartUpload
  deriving DecidableEq, Repr

/-- The list that `CloseMultiPart` gets. The gateway decodes the request's list and passes none. -/
def Entry.passed : Entry → List Int32 → List Int32
  | completeMultipartUpload, _ => []
  | _, parts => parts

/-- A call of `CloseMultiPart` that waits. -/
structure Closing where
  entry : Entry
  /-- the part numbers that its caller was given -/
  parts : List Int32
  pendingMap : Finset Int32
  pending : ℕ

structure Job where
  key : Bytes
  term : UInt64
  /-- whether the job is in `multipartJobs` -/
  registered : Bool := true
  status : BlockStatus := .READING
  /-- the addresses of the blocks by part number -/
  blocks : AList (fun _ : Int32 => ℕ) := ∅
  partIDs : List Int32 := []
  /-- the blocks by address -/
  heap : List Block := []
  /-- uploads that have not ended -/
  uploading : List ℕ := []
  /-- uploads that have ended and send their block on `finishedBlocks` -/
  finishedBlocks : List ℕ := []
  closing : Option Closing := none

/-- What the successive calls of `Read` return; the last one comes with an error, `none` being
`io.EOF`. -/
structure Reader where
  reads : List Bytes
  last : Bytes
  err : Option Errno
  deriving DecidableEq, Repr

inductive Action where
  /-- `victim` is the error on the way to delete a block of that number -/
  | writePart (partID : Int32) (reader : Reader) (victim : Option Errno)
  /-- `Upload` of a block returns -/
  | uploadBlock (h : ℕ) (uploaded : Bool)
  | complete (entry : Entry) (parts : List Int32)
  /-- `CloseMultiPart` receives from `finishedBlocks` -/
  | receive (h : ℕ)
  /-- `CommitPartialMeta` and the end of `CloseMultiPart` -/
  | commit (replies : List SubmitReply)
  | abort
  deriving DecidableEq, Repr

def createMultipartUploadJob (key : Bytes) (term : UInt64) : Job := { key, term }

/-- `addPartID`; `none` where the number is there already. -/
def addPartID : List Int32 → Int32 → Option (List Int32)
  | [], partID => some [partID]
  | id :: ids, partID =>
    if partID = id then none
    else if partID < id then some (partID :: id :: ids)
    else (addPartID ids partID).map (id :: ·)

namespace Job

variable (f : Factory)

/-- `w.blocks[int(partID)]` -/
def current (j : Job) (partID : Int32) : Option Block :=
  (j.blocks.lookup partID).bind fun h => j.heap[h]?

/-- The loop of `WritePart` and what follows it, on the new block; with the error that ends it.
Without an object hash `objHash` is nil and the first round panics. -/
def readPart (h : ℕ) (partID : Int32) (reader : Reader) : Block × Option Errno :=
  let data := reader.reads ++ [reader.last]
  let chunks := data.map fun d => (⟨d, 0⟩ : LocalChunk)
  let block := { getNewBlock with info := { getNewBlock.info with partId := partID } }
  if f.bucketInfo.config.objectHashType = .off then
    ({ block with chunks := chunks.take 1 }, some (.other "nil pointer dereference"))
  else
    match reader.err with
    | some e => ({ block with chunks }, some e)
    | none =>
      let blockSize := UInt64.ofNat (data.map List.length).sum
      let block := { block with
        chunks, status := .UPLOADING, info := { block.info with blockSize } }
      match block.updateBlockInfo f h with
      | .error e => (block, some e)
      | .ok block => (block, none)

/-- `WritePart` from `getNewBlock` on. -/
def writeBlock (j : Job) (partID : Int32) (reader : Reader) : Job × Except Errno Bytes :=
  let h := j.heap.length
  let j := { j with blocks := j.blocks.insert partID h }
  match readPart f h partID reader with
  | (block, some e) => ({ j with heap := j.heap ++ [block] }, .error e)
  | (block, none) =>
    ({ j with heap := j.heap ++ [block], uploading := j.uploading ++ [h] }, .ok block.info.blockId)

/-- What ends `WritePart` before it makes the new block of a part that is written again. The block
of a reader that failed has no group, and the nodes of group 0 are looked up at index -1. -/
def victimError (j : Job) (partID : Int32) (victim : Option Errno) : Option Errno :=
  match j.current partID with
  | none => some (.other "nil pointer dereference")
  | some block => if block.info.pgId = 0 then some (.other "index out of range") else victim

def writePart (j : Job) (partID : Int32) (reader : Reader) (victim : Option Errno) :
    Job × Except Errno Bytes :=
  if j.status ≠ .READING then (j, .error .repeatedClose)
  else if partID < 1 ∨ 10000 < partID then (j, .error .invalidArgument)
  else
    match addPartID j.partIDs partID with
    | some partIDs => writeBlock f { j with partIDs } partID reader
    | none =>
      match j.victimError partID victim with
      | some e => (j, .error e)
      | none => writeBlock f j partID reader

/-- The status of a block whose `Upload` has returned. -/
def uploadStatus (uploaded : Bool) : BlockStatus := if uploaded then .FINISHED else .FAILED

/-- The end of `uploadBlock`, up to the send. `Block.Close` does nothing on a part. -/
def uploadBlock (j : Job) (h : ℕ) (uploaded : Bool) : Option Job := do
  let block ← j.heap[h]?
  if h ∈ j.uploading then
    return { j with
      heap := j.heap.set h { block with status := uploadStatus uploaded, chunks := [] }
      uploading := j.uploading.erase h
      finishedBlocks := j.finishedBlocks ++ [h] }
  else none

/-- The first loop of `CloseMultiPart`. -/
def pendingMap (j : Job) : List Int32 → Except Errno (Finset Int32)
  | [] => .ok ∅
  | partNumber :: parts => do
    if partNumber < 1 ∨ 10000 < partNumber then .error .invalidArgument
    else if j.blocks.lookup partNumber = none then .error .invalidPart
    else return insert partNumber (← j.pendingMap parts)

/-- `CloseMultiPart` up to its second loop. -/
def closeMultiPart (j : Job) (entry : Entry) (parts : List Int32) : Job × Option Errno :=
  if j.status ≠ .READING then (j, some .repeatedClose)
  else
    let j := { j with status := .UPLOADING }
    match j.pendingMap (entry.passed parts) with
    | .error e => (j, some e)
    | .ok pendingMap =>
      ({ j with closing := some ⟨entry, parts, pendingMap, (entry.passed parts).length⟩ }, none)

/-- The call of an entry, up to that loop. The first number is compared with 0. -/
def complete (j : Job) (entry : Entry) (parts : List Int32) : Job × Option Errno :=
  match entry with
  | .closeMultiPart => j.closeMultiPart entry parts
  | _ =>
    if ¬ (0 :: entry.passed parts).IsChain (· ≤ ·) then (j, some .invalidPartOrder)
    else if ¬ j.registered then (j, some .noSuchUpload)
    else j.closeMultiPart entry parts

def receive (j : Job) (h : ℕ) : Option Job := do
  let c ← j.closing
  let block ← j.heap[h]?
  if 0 < c.pending ∧ h ∈ j.finishedBlocks then
    let j := { j with finishedBlocks := j.finishedBlocks.erase h }
    let partID := block.info.partId
    if j.blocks.lookup partID = some h ∧ partID ∈ c.pendingMap then
      let c := { c with pending := c.pending - 1, pendingMap := c.pendingMap.erase partID }
      return { j with closing := some c }
    else return j
  else none

/-- `genPartialMeta`. The block of a number that is missing is a nil pointer. -/
def genPartialMeta (j : Job) : Option ObjectMeta := do
  let blocks ← j.partIDs.mapM fun partID => (j.current partID).map Block.info
  let hashType := f.bucketInfo.config.objectHashType
  return {
    objId := genObjectId f.ring f.bucketInfo j.key
    objSize := blocks.foldl (fun objSize block => objSize + block.blockSize) 0
    updateTime := f.now
    objHash := if hashType = .off then [] else f.hexSum hashType (blocks.flatMap BlockInfo.blockHash)
    pgId := genObjPgID f.ring f.bucketInfo j.key 10
    blocks
    term := j.term }

end Job

/-- How `CloseMultiPart` returns after its loops. -/
structure Completed where
  job : Job
  err : Option Errno
  /-- what it has submitted -/
  objectMeta : ObjectMeta

namespace Job

variable (f : Factory)

/-- `CommitPartialMeta` and the end of `CloseMultiPart`; `none` while it waits or retries, and
where the nil `objHash` is asked for its sum. -/
def commit (j : Job) (c : Closing) (replies : List SubmitReply) : Option Completed := do
  let objectMeta ← j.genPartialMeta f
  let (err, _) ← uploadMeta replies
  if 0 < c.pending then none
  else
    match err with
    | some e => return ⟨{ j with closing := none }, some e, objectMeta⟩
    | none =>
      if f.bucketInfo.config.objectHashType = .off then none
      else
        let registered := if c.entry = .closeMultiPart then j.registered else false
        return ⟨{ j with closing := none, status := .FINISHED, registered }, none, objectMeta⟩

/-- `AbortMultipartUploadJob`. A multipart writer counts no blocks, so `Abort` waits for none. -/
def abort (j : Job) : Job × Option Errno :=
  if ¬ j.registered then (j, some .noSuchUpload)
  else if j.status ≠ .READING then (j, some .repeatedClose)
  else ({ j with status := .ABORTED, registered := false }, none)

def step (j : Job) : Action → Option Job
  | .writePart partID reader victim => some (j.writePart f partID reader victim).1
  | .uploadBlock h uploaded => j.uploadBlock h uploaded
  | .complete entry parts => some (j.complete entry parts).1
  | .receive h => j.receive h
  | .commit replies => do
    let c ← j.closing
    let r ← j.commit f c replies
    return r.job
  | .abort => some j.abort.1

end Job

def Ended (b : Block) : Prop := b.status = .FINISHED ∨ b.status = .FAILED

namespace Job

variable {f : Factory} {j j' : Job}

structure Sound (j : Job) : Prop where
  keyed : ∀ p h, j.blocks.lookup p = some h → ∃ b, j.heap[h]? = some b ∧ b.info.partId = p
  listed : ∀ p ∈ j.partIDs, ∃ h, j.blocks.lookup p = some h
  ended : ∀ h ∈ j.finishedBlocks, ∃ b, j.heap[h]? = some b ∧ Ended b
  reading : ∀ c, j.closing = some c → j.status ≠ .READING
  pending : ∀ c, j.closing = some c → c.pendingMap.card ≤ c.pending
  awaited : ∀ c, j.closing = some c → ∀ p ∈ c.entry.passed c.parts,
    p ∈ c.pendingMap ∨ ∃ b, j.current p = some b ∧ Ended b

theorem uploadBlock_cases {h : ℕ} {uploaded : Bool} (hstep : j.uploadBlock h uploaded = some j') :
    ∃ block, j.heap[h]? = some block ∧ h ∈ j.uploading ∧ j' = { j with
      heap := j.heap.set h { block with status := uploadStatus uploaded, chunks := [] }
      uploading := j.uploading.erase h
      finishedBlocks := j.finishedBlocks ++ [h] } := by
  simp only [Job.uploadBlock, bind, Option.bind_eq_some_iff] at hstep
  obtain ⟨block, hblock, hstep⟩ := hstep
  split_ifs at hstep with hin
  exact ⟨block, hblock, hin, (Option.some.inj hstep).symm⟩

/-- A completion counts if its block is the current one of a part that is waited for. -/
theorem receive_cases {h : ℕ} (hstep : j.receive h = some j') :
    ∃ c block, j.closing = some c ∧ j.heap[h]? = some block ∧ 0 < c.pending ∧
      h ∈ j.finishedBlocks ∧
      ((j.blocks.lookup block.info.partId = some h ∧ block.info.partId ∈ c.pendingMap ∧
        j' = { j with
          finishedBlocks := j.finishedBlocks.erase h
          closing := some { c with
            pending := c.pending - 1, pendingMap := c.pendingMap.erase block.info.partId } }) ∨
      (¬ (j.blocks.lookup block.info.partId = some h ∧ block.info.partId ∈ c.pendingMap) ∧
        j' = { j with finishedBlocks := j.finishedBlocks.erase h })) := by
  simp only [Job.receive, bind, Option.bind_eq_some_iff] at hstep
  obtain ⟨c, hc, block, hb, hstep⟩ := hstep
  split_ifs at hstep with hready hmine
  · exact ⟨c, block, hc, hb, hready.1, hready.2,
      .inl ⟨hmine.1, hmine.2, (Option.some.inj hstep).symm⟩⟩
  · exact ⟨c, block, hc, hb, hready.1, hready.2, .inr ⟨hmine, (Option.some.inj hstep).symm⟩⟩

theorem Sound.current (hj : j.Sound) {p : Int32} {h : ℕ} (hp : j.blocks.lookup p = some h) :
    ∃ b, j.current p = some b ∧ j.heap[h]? = some b ∧ b.info.partId = p := by
  obtain ⟨b, hb, hid⟩ := hj.keyed p h hp
  exact ⟨b, by rw [Job.current, hp]; exact hb, hb, hid⟩

theorem Sound.lookup_inj (hj : j.Sound) {p q : Int32} {h : ℕ} (hp : j.blocks.lookup p = some h)
    (hq : j.blocks.lookup q = some h) : p = q := by
  obtain ⟨b, hb, rfl⟩ := hj.keyed p h hp
  obtain ⟨b', hb', rfl⟩ := hj.keyed q h hq
  rw [hb] at hb'
  cases hb'
  rfl

theorem mem_addPartID {ids ids' : List Int32} {p q : Int32} (h : addPartID ids p = some ids')
    (hq : q ∈ ids') : q = p ∨ q ∈ ids := by
  induction ids generalizing ids' with
  | nil =>
    cases h
    exact .inl (List.mem_singleton.mp hq)
  | cons id ids ih =>
    rw [addPartID] at h
    split_ifs at h
    · cases h
      exact List.mem_cons.mp hq
    · obtain ⟨rest, hrest, rfl⟩ := Option.map_eq_some_iff.mp h
      rcases List.mem_cons.mp hq with rfl | hq
      · exact .inr List.mem_cons_self
      · exact (ih hrest hq).imp_right (List.mem_cons_of_mem id)

theorem partId_updateBlockInfo {b b' : Block} {h : ℕ} (hb : b.updateBlockInfo f h = .ok b') :
    b'.info.partId = b.info.partId := by
  obtain ⟨hash, -, hb⟩ := bind_eq_ok hb
  cases hb
  rfl

theorem partId_readPart (h : ℕ) (p : Int32) (reader : Reader) :
    (readPart f h p reader).1.info.partId = p := by
  unfold readPart
  dsimp only
  split_ifs
  · rfl
  · split
    · rfl
    · split
      · rfl
      · rename_i hb
        exact partId_updateBlockInfo hb

def withBlock (j : Job) (p : Int32) (block : Block) (uploading : List ℕ) : Job :=
  { j with
    blocks := j.blocks.insert p j.heap.length, heap := j.heap ++ [block], uploading }

theorem writeBlock_eq (j : Job) (p : Int32) (reader : Reader) :
    ∃ block uploading, block.info.partId = p ∧
      (j.writeBlock f p reader).1 = j.withBlock p block uploading := by
  have hid := partId_readPart (f := f) j.heap.length p reader
  unfold writeBlock
  dsimp only
  split
  · rename_i block e hr
    exact ⟨block, j.uploading, by rw [hr] at hid; exact hid, rfl⟩
  · rename_i block hr
    exact ⟨block, j.uploading ++ [j.heap.length], by rw [hr] at hid; exact hid, rfl⟩

theorem Sound.withBlock (hj : j.Sound) (hread : j.status = .READING) {p : Int32} {block : Block}
    (hid : block.info.partId = p) (uploading : List ℕ) {partIDs : List Int32}
    (hids : ∀ q ∈ partIDs, q = p ∨ q ∈ j.partIDs) :
    Sound { j.withBlock p block uploading with partIDs } := by
  have hnone : ∀ c, j.closing ≠ some c := fun c hc => hj.reading c hc hread
  have hheap : ∀ {h : ℕ} {b : Block}, j.heap[h]? = some b → (j.heap ++ [block])[h]? = some b :=
    fun hb => by rw [List.getElem?_append_left (List.getElem?_eq_some_iff.mp hb).1, hb]
  refine ⟨fun q h hq => ?_, fun q hq => ?_, fun h hh => ?_, fun c hc => absurd hc (hnone c),
    fun c hc => absurd hc (hnone c), fun c hc => absurd hc (hnone c)⟩
  · by_cases hqp : q = p
    · rw [hqp] at hq
      rw [Job.withBlock, AList.lookup_insert] at hq
      cases hq
      exact ⟨block, List.getElem?_concat_length, by rw [hid, hqp]⟩
    · rw [Job.withBlock, AList.lookup_insert_ne hqp] at hq
      obtain ⟨b, hb, hbid⟩ := hj.keyed q h hq
      exact ⟨b, hheap hb, hbid⟩
  · by_cases hqp : q = p
    · exact ⟨j.heap.length, by rw [hqp, Job.withBlock, AList.lookup_insert]⟩
    · rw [Job.withBlock, AList.lookup_insert_ne hqp]
      exact hj.listed q ((hids q hq).resolve_left hqp)
  · obtain ⟨b, hb, hend⟩ := hj.ended h hh
    exact ⟨b, hheap hb, hend⟩

theorem Sound.writePart (hj : j.Sound) (p : Int32) (reader : Reader) (victim : Option Errno) :
    (j.writePart f p reader victim).1.Sound := by
  unfold Job.writePart
  split_ifs with hread hrange
  · exact hj
  · exact hj
  · rw [not_not] at hread
    split
    · rename_i partIDs hids
      obtain ⟨block, uploading, hid, heq⟩ := writeBlock_eq (f := f) { j with partIDs } p reader
      rw [heq]
      exact hj.withBlock hread hid uploading fun q hq => mem_addPartID hids hq
    · split
      · exact hj
      · obtain ⟨block, uploading, hid, heq⟩ := writeBlock_eq (f := f) j p reader
        rw [heq]
        exact hj.withBlock hread hid uploading fun q hq => .inr hq

theorem ended_uploadStatus {b : Block} {uploaded : Bool} (h : b.status = uploadStatus uploaded) :
    Ended b := by
  cases uploaded
  · exact .inr h
  · exact .inl h

/-- A block changes when its upload ends. All blocks keep their info, and ended uploads have
ended. -/
theorem getElem?_set_ended {heap : List Block} {g h : ℕ} {b block block' : Block}
    (hblock : heap[h]? = some block) (hend : Ended block') (hinfo : block'.info = block.info)
    (hb : heap[g]? = some b) :
    ∃ b', (heap.set h block')[g]? = some b' ∧ b'.info = b.info ∧ (Ended b → Ended b') := by
  by_cases hgh : h = g
  · rw [hgh, hb] at hblock
    cases hblock
    have hlt : g < heap.length := (List.getElem?_eq_some_iff.mp hb).1
    exact ⟨block', by rw [hgh, List.getElem?_set_self hlt], hinfo, fun _ => hend⟩
  · exact ⟨b, by rw [List.getElem?_set_ne hgh, hb], rfl, id⟩

theorem Sound.uploadBlock (hj : j.Sound) {h : ℕ} {uploaded : Bool}
    (hstep : j.uploadBlock h uploaded = some j') : j'.Sound := by
  obtain ⟨block, hblock, -, rfl⟩ := uploadBlock_cases hstep
  have hend : Ended { block with status := uploadStatus uploaded, chunks := [] } :=
    ended_uploadStatus rfl
  refine ⟨fun p g hp => ?_, hj.listed, fun g hg => ?_, hj.reading, hj.pending,
    fun c hc p hp => (hj.awaited c hc p hp).imp_right ?_⟩
  · obtain ⟨b, hb, hid⟩ := hj.keyed p g hp
    obtain ⟨b', hb', hinfo, -⟩ := getElem?_set_ended hblock hend rfl hb
    exact ⟨b', hb', by rw [hinfo, hid]⟩
  · rcases List.mem_append.mp hg with hg | hg
    · obtain ⟨b, hb, hbend⟩ := hj.ended g hg
      obtain ⟨b', hb', -, hend'⟩ := getElem?_set_ended hblock hend rfl hb
      exact ⟨b', hb', hend' hbend⟩
    · rw [List.mem_singleton.mp hg]
      exact ⟨_, List.getElem?_set_self (List.getElem?_eq_some_iff.mp hblock).1, hend⟩
  · rintro ⟨b, hb, hbend⟩
    obtain ⟨g, hg, hb⟩ := Option.bind_eq_some_iff.mp hb
    obtain ⟨b', hb', -, hend'⟩ := getElem?_set_ended hblock hend rfl hb
    exact ⟨b', Option.bind_eq_some_iff.mpr ⟨g, hg, hb'⟩, hend' hbend⟩

theorem pendingMap_eq {parts : List Int32} {s : Finset Int32} (h : j.pendingMap parts = .ok s) :
    s = parts.toFinset := by
  induction parts generalizing s with
  | nil =>
    cases h
    rfl
  | cons p parts ih =>
    rw [pendingMap] at h
    split_ifs at h
    obtain ⟨s', hs', h⟩ := bind_eq_ok h
    cases h
    rw [List.toFinset_cons, ih hs']

/-- The parts that pass the first loop have blocks. -/
theorem pendingMap_lookup {parts : List Int32} {s : Finset Int32} (h : j.pendingMap parts = .ok s) :
    ∀ p ∈ parts, ∃ g, j.blocks.lookup p = some g := by
  induction parts generalizing s with
  | nil => exact nofun
  | cons p parts ih =>
    rw [pendingMap] at h
    split_ifs at h with hrange hnone
    obtain ⟨s', hs', -⟩ := bind_eq_ok h
    exact List.forall_mem_cons.mpr ⟨Option.ne_none_iff_exists'.mp hnone, ih hs'⟩

theorem Sound.closeMultiPart (hj : j.Sound) (entry : Entry) (parts : List Int32) :
    (j.closeMultiPart entry parts).1.Sound := by
  unfold Job.closeMultiPart
  split_ifs with hread
  · exact hj
  · rw [not_not] at hread
    have hnone : ∀ c, j.closing ≠ some c := fun c hc => hj.reading c hc hread
    dsimp only
    split
    · exact ⟨hj.keyed, hj.listed, hj.ended, fun c hc => absurd hc (hnone c),
        fun c hc => absurd hc (hnone c), fun c hc => absurd hc (hnone c)⟩
    · rename_i s hs
      have hmap := pendingMap_eq hs
      refine ⟨hj.keyed, hj.listed, hj.ended, fun c _ => by simp, fun c hc => ?_, fun c hc p hp => ?_⟩
      · cases hc
        rw [hmap]
        exact List.toFinset_card_le _
      · cases hc
        rw [hmap]
        exact .inl (List.mem_toFinset.mpr hp)

theorem Sound.complete (hj : j.Sound) (entry : Entry) (parts : List Int32) :
    (j.complete entry parts).1.Sound := by
  unfold Job.complete
  split
  · exact hj.closeMultiPart .closeMultiPart parts
  · split_ifs <;> first | exact hj | exact hj.closeMultiPart entry parts

theorem Sound.receive (hj : j.Sound) {h : ℕ} (hstep : j.receive h = some j') : j'.Sound := by
  obtain ⟨c, block, hc, hb, hpos, hin, hcase⟩ := receive_cases hstep
  have hended : ∀ g ∈ j.finishedBlocks.erase h, ∃ b, j.heap[g]? = some b ∧ Ended b :=
    fun g hg => hj.ended g (List.mem_of_mem_erase hg)
  rcases hcase with ⟨hmine, hmem, rfl⟩ | ⟨-, rfl⟩
  · refine ⟨hj.keyed, hj.listed, hended, fun c' _ => hj.reading c hc, fun c' hc' => ?_,
      fun c' hc' p hp => ?_⟩
    · cases hc'
      have hle := hj.pending c hc
      dsimp only
      rw [Finset.card_erase_of_mem hmem]
      omega
    · cases hc'
      rcases hj.awaited c hc p hp with hwait | hdone
      · by_cases hpid : p = block.info.partId
        · -- the block that was received is the current one of its part
          obtain ⟨b, hbh, hend⟩ := hj.ended h hin
          rw [hb] at hbh
          cases hbh
          refine .inr ⟨block, ?_, hend⟩
          rw [hpid, Job.current, hmine]
          exact hb
        · exact .inl (Finset.mem_erase.mpr ⟨hpid, hwait⟩)
      · exact .inr hdone
  · exact ⟨hj.keyed, hj.listed, hended, hj.reading, hj.pending, hj.awaited⟩

theorem commit_job {c : Closing} {replies : List SubmitReply} {r : Completed}
    (h : j.commit f c replies = some r) :
    j.genPartialMeta f = some r.objectMeta ∧ c.pending = 0 ∧
      r.job = { j with closing := none, status := r.job.status, registered := r.job.registered } := by
  simp only [commit, bind, Option.bind_eq_some_iff] at h
  obtain ⟨objectMeta, hm, err, -, h⟩ := h
  by_cases hp : 0 < c.pending
  · rw [if_pos hp] at h
    cases h
  · rw [if_neg hp] at h
    have hzero : c.pending = 0 := Nat.eq_zero_of_not_pos hp
    split at h
    · cases h
      exact ⟨hm, hzero, rfl⟩
    · split_ifs at h <;> cases h <;> exact ⟨hm, hzero, rfl⟩

theorem sound_step (hj : j.Sound) {a : Action} (h : j.step f a = some j') : j'.Sound := by
  cases a with
  | writePart p reader victim =>
    cases h
    exact hj.writePart p reader victim
  | uploadBlock g uploaded => exact hj.uploadBlock h
  | complete entry parts =>
    cases h
    exact hj.complete entry parts
  | receive g => exact hj.receive h
  | commit replies =>
    simp only [step, bind, Option.bind_eq_some_iff] at h
    obtain ⟨c, -, r, hr, h⟩ := h
    cases h
    rw [(commit_job hr).2.2]
    exact ⟨hj.keyed, hj.listed, hj.ended, fun c hc => (by cases hc), fun c hc => (by cases hc),
      fun c hc => (by cases hc)⟩
  | abort =>
    cases h
    unfold Job.abort
    split_ifs with hreg hread
    · exact hj
    · rw [not_not] at hread
      exact ⟨hj.keyed, hj.listed, hj.ended, fun c hc => absurd hread (hj.reading c hc), hj.pending,
        hj.awaited⟩
    · exact hj

theorem sound_run {key : Bytes} {term : UInt64} {acts : List Action}
    (h : run (step f) (createMultipartUploadJob key term) acts = some j) : j.Sound := by
  have hinit : (createMultipartUploadJob key term).Sound :=
    ⟨fun p h hp => (by cases hp), fun p hp => absurd hp List.not_mem_nil,
      fun h hh => absurd hh List.not_mem_nil, fun c hc => (by cases hc), fun c hc => (by cases hc),
      fun c hc => (by cases hc)⟩
  exact run_preserved (fun _ _ _ hj h => sound_step hj h) hinit h

end Job

theorem map_eq_of_mapM {α β : Type} {g : α → Option β} {l : List α} {bs : List β}
    (h : l.mapM g = some bs) : l.map g = bs.map some := by
  induction l generalizing bs with
  | nil =>
    cases h
    rfl
  | cons a l ih =>
    rw [List.mapM_cons] at h
    obtain ⟨b, hb, h⟩ := Option.bind_eq_some_iff.mp h
    obtain ⟨bs', hbs, h⟩ := Option.bind_eq_some_iff.mp h
    cases h
    rw [List.map_cons, List.map_cons, hb, ih hbs]

theorem toNat_foldl_blockSize (bs : List BlockInfo) (n : UInt64) :
    (bs.foldl (fun objSize block => objSize + block.blockSize) n).toNat =
      (n.toNat + (bs.map fun b => b.blockSize.toNat).sum) % 2 ^ 64 := by
  induction bs generalizing n with
  | nil =>
    have := n.toNat_lt
    simp only [List.foldl_nil, List.map_nil, List.sum_nil]
    omega
  | cons b bs ih =>
    rw [List.foldl_cons, ih, List.map_cons, List.sum_cons, UInt64.toNat_add]
    omega

def Job.infos (j : Job) (parts : List Int32) : List (Option BlockInfo) :=
  parts.map fun p => (j.current p).map Block.info

/-- The object consists of the blocks of these parts, which are all uploaded. -/
structure Exact (j : Job) (parts : List Int32) (m : ObjectMeta) : Prop where
  blocks : m.blocks.map some = j.infos parts
  finished : ∀ p ∈ parts, (j.current p).map Block.status = some .FINISHED
  objSize : m.objSize.toNat = (m.blocks.map fun b => b.blockSize.toNat).sum

/-- The caller has named all parts of the writer, and their uploads have gone well. The gateway
does not wait, so there they have to be over. -/
structure AllUploaded (j : Job) (c : Closing) : Prop where
  parts : c.parts = j.partIDs
  notFailed : ∀ p ∈ j.partIDs, (j.current p).map Block.status ≠ some .FAILED
  ended : c.entry = .completeMultipartUpload →
    ∀ p ∈ j.partIDs, (j.current p).map Block.status = some .FINISHED
  size : ((j.infos j.partIDs).map fun b => (b.map fun b => b.blockSize.toNat).getD 0).sum < 2 ^ 64

namespace Job

variable {f : Factory} {j : Job}

theorem genPartialMeta_eq {m : ObjectMeta} (h : j.genPartialMeta f = some m) :
    m.blocks.map some = j.infos j.partIDs ∧
      m.objSize.toNat = (m.blocks.map fun b => b.blockSize.toNat).sum % 2 ^ 64 := by
  simp only [genPartialMeta, bind, Option.bind_eq_some_iff] at h
  obtain ⟨blocks, hblocks, h⟩ := h
  cases h
  refine ⟨(map_eq_of_mapM hblocks).symm, ?_⟩
  rw [toNat_foldl_blockSize]
  simp

/-- The infos of parts name the parts. -/
theorem Sound.parts_eq (hj : j.Sound) {parts parts' : List Int32}
    (h : ∀ p ∈ parts, ∃ b, j.current p = some b) (h' : ∀ p ∈ parts', ∃ b, j.current p = some b)
    (heq : j.infos parts = j.infos parts') : parts = parts' := by
  have hids : ∀ l : List Int32, (∀ p ∈ l, ∃ b, j.current p = some b) →
      (j.infos l).map (Option.map BlockInfo.partId) = l.map some := by
    intro l hl
    rw [infos, List.map_map]
    refine List.map_congr_left fun p hp => ?_
    obtain ⟨b, hb⟩ := hl p hp
    obtain ⟨g, hg, hb⟩ := Option.bind_eq_some_iff.mp hb
    obtain ⟨b', hcur, hb', hid⟩ := hj.current hg
    rw [Function.comp_apply, hcur]
    simp [hid]
  have hmap : parts.map some = parts'.map some := by rw [← hids parts h, heq, hids parts' h']
  exact (List.map_injective_iff.mpr (Option.some_injective _)) hmap

theorem Sound.listed_current (hj : j.Sound) : ∀ p ∈ j.partIDs, ∃ b, j.current p = some b := by
  intro p hp
  obtain ⟨h, hh⟩ := hj.listed p hp
  obtain ⟨b, hb, -⟩ := hj.current hh
  exact ⟨b, hb⟩

/-- All callers but the gateway's pass the list on. -/
theorem mem_passed {entry : Entry} (hentry : entry ≠ .completeMultipartUpload) {parts : List Int32}
    {p : Int32} (hp : p ∈ parts) : p ∈ entry.passed parts := by
  cases entry with
  | completeMultipartUpload => exact absurd rfl hentry
  | closeMultiPart => exact hp
  | completeMultipartUploadJob => exact hp

/-- What `CloseMultiPart` has waited for has ended: it is uploaded unless it has failed. -/
theorem Sound.finished_of_pending (hj : j.Sound) {c : Closing} (hc : j.closing = some c)
    (hpending : c.pending = 0) {p : Int32} (hp : p ∈ c.entry.passed c.parts)
    (hfailed : (j.current p).map Block.status ≠ some .FAILED) :
    (j.current p).map Block.status = some .FINISHED := by
  have hcard := hj.pending c hc
  rw [hpending, Nat.le_zero, Finset.card_eq_zero] at hcard
  have hnot : p ∉ c.pendingMap := by
    rw [hcard]
    exact Finset.notMem_empty p
  obtain ⟨b, hb, hend⟩ := (hj.awaited c hc p hp).resolve_left hnot
  rw [hb] at hfailed ⊢
  rcases hend with hend | hend
  · rw [Option.map_some, hend]
  · exact absurd (by rw [Option.map_some, hend]) hfailed

end Job

/-- When `CloseMultiPart` has returned from its loops, the object that it has committed consists of
the parts its caller has named exactly if these are all parts of the writer, uploaded. -/
theorem exact_iff_allUploaded (f : Factory) (key : Bytes) (term : UInt64) (acts : List Action)
    (replies : List SubmitReply) {j : Job} {c : Closing} {r : Completed}
    (hr : run (Job.step f) (createMultipartUploadJob key term) acts = some j)
    (hc : j.closing = some c) (h : j.commit f c replies = some r) :
    Exact r.job c.parts r.objectMeta ↔ AllUploaded j c := by
  have hj := Job.sound_run hr
  obtain ⟨hm, hpending, hjob⟩ := Job.commit_job h
  obtain ⟨hblocks, hsize⟩ := Job.genPartialMeta_eq hm
  have hcur : r.job.current = j.current := by rw [hjob]; rfl
  have hinfos : r.job.infos = j.infos := by unfold Job.infos; rw [hcur]
  have hsum : (r.objectMeta.blocks.map fun b => b.blockSize.toNat).sum =
      ((j.infos j.partIDs).map fun b => (b.map fun b => b.blockSize.toNat).getD 0).sum := by
    rw [← hblocks, List.map_map]
    rfl
  constructor
  · rintro ⟨hexact, hfinished, hobjSize⟩
    rw [hinfos] at hexact
    rw [hcur] at hfinished
    have hparts : c.parts = j.partIDs := by
      refine hj.parts_eq (fun p hp => ?_) hj.listed_current (hexact.symm.trans hblocks)
      obtain ⟨b, hb, -⟩ := Option.map_eq_some_iff.mp (hfinished p hp)
      exact ⟨b, hb⟩
    rw [hparts] at hfinished
    refine ⟨hparts, fun p hp => ?_, fun _ => hfinished, ?_⟩
    · rw [hfinished p hp]
      decide
    · rw [← hsum, ← hobjSize]
      exact r.objectMeta.objSize.toNat_lt
  · rintro ⟨hparts, hfailed, hended, hlt⟩
    refine ⟨by rw [hinfos, hparts, hblocks], fun p hp => ?_, ?_⟩
    · rw [hcur]
      rw [hparts] at hp
      by_cases hentry : c.entry = .completeMultipartUpload
      · exact hended hentry p hp
      · -- the others have passed the list on and waited
        have hpassed := Job.mem_passed hentry (hparts ▸ hp)
        exact hj.finished_of_pending hc hpending hpassed (hfailed p hp)
    · rw [hsize, Nat.mod_eq_of_lt (hsum ▸ hlt)]

def hashing : Factory where
  chunkSize := 1
  bucketInfo := ⟨[118], [98], [], { keySlotNum := 1, blockSize := 2, objectHashType := .sha256 }⟩
  ring _ _ := 0
  acquireMultiple _ _ := none
  genBlockId i := [UInt8.ofNat i]
  genBlockPG _ := 1
  hexSum _ _ := []
  now := ⟨0, 0⟩

def after (acts : List Action) : Job :=
  (run (Job.step hashing) (createMultipartUploadJob [107] 1) acts).getD
    (createMultipartUploadJob [107] 1)

def writeTwo : List Action :=
  [.writePart 2 ⟨[[3]], [], none⟩ none, .writePart 1 ⟨[[1], [2]], [], none⟩ none,
    .uploadBlock 1 true]

def nameBoth : List Action :=
  writeTwo ++ [.complete .completeMultipartUploadJob [1, 2], .receive 1, .uploadBlock 0 true,
    .receive 0]

theorem status_nameBoth : ∀ p ∈ (after nameBoth).partIDs,
    ((after nameBoth).current p).map Block.status = some .FINISHED := by
  have hids : (after nameBoth).partIDs = [1, 2] := by decide
  rw [hids, List.forall_mem_cons, List.forall_mem_singleton]
  decide

theorem exact_iff_allUploaded_nameBoth :
    ∃ c r, (after nameBoth).closing = some c ∧ (after nameBoth).commit hashing c [.ok] = some r ∧
      c.parts = [1, 2] ∧ r.err = none ∧ r.objectMeta.objSize = 3 ∧
      Exact r.job c.parts r.objectMeta := by
  have huploaded : ∀ c : Closing, c.parts = [1, 2] → AllUploaded (after nameBoth) c := by
    intro c hparts
    refine ⟨hparts, fun p hp => ?_, fun _ => status_nameBoth, by decide⟩
    rw [status_nameBoth p hp]
    decide
  exact ⟨_, _, rfl, rfl, rfl, rfl, rfl,
    (exact_iff_allUploaded hashing [107] 1 nameBoth [.ok] rfl rfl rfl).mpr (huploaded _ rfl)⟩

def nameFirst (entry : Entry) : List Action :=
  writeTwo ++ [.complete entry [1]] ++ if entry = .completeMultipartUpload then [] else [.receive 1]

/-- A part that was not named is committed, though it is uploading. -/
def CommitsUnnamed (acts : List Action) : Prop :=
  ∃ c r, (after acts).closing = some c ∧ (after acts).commit hashing c [.ok] = some r ∧
    c.parts = [1] ∧ r.err = none ∧ r.objectMeta.blocks.map BlockInfo.partId = [1, 2] ∧
    (r.job.current 2).map Block.status = some .UPLOADING ∧ ¬ Exact r.job c.parts r.objectMeta

/-- The list may come from the factory's user or in a request. -/
theorem unnamed_part_committed :
    CommitsUnnamed (nameFirst .completeMultipartUploadJob) ∧
      CommitsUnnamed (nameFirst .completeMultipartUpload) := by
  refine ⟨⟨_, _, rfl, rfl, rfl, rfl, by decide, by decide, fun h => ?_⟩,
    ⟨_, _, rfl, rfl, rfl, rfl, by decide, by decide, fun h => ?_⟩⟩ <;>
    exact absurd h.blocks (by decide)

end Ecos.Client.Multipart
