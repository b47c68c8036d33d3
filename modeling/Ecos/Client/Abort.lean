import Ecos.Client.Completion

namespace Ecos.Client
open Go Std

section
variable (f : Factory)

structure AbortResult where
  writer : EcosWriter
  err : Option Errno
  /-- the numbers of the blocks that went to `abortBlock` -/
  aborted : List ℕ

/-- `Abort`, given the completions in the order of their arrival; `none` where it waits for ever. -/
def abort (w : EcosWriter) (completions : List (ℕ × Bool)) : Option AbortResult :=
  if w.status ≠ .READING then some ⟨w, some .repeatedClose, []⟩
  else do
    let w' ← receiveFinished f w.blockCount { w with status := .ABORTED } completions
    return ⟨w', none, (completions.take w.blockCount).map Prod.fst⟩

/-- How many chunks the first `n` calls of `AcquireMultiple` have returned. -/
def acquiredChunks (n : ℕ) : ℕ :=
  ((List.range n).map fun i => ((f.acquireMultiple i f.perBlock).getD []).length).sum

end

variable {f : Factory} {w : EcosWriter} {bs : List Block} {cs : List LocalChunk}

theorem acquiredChunks_succ {n : ℕ} {chunks : List LocalChunk}
    (h : f.acquireMultiple n f.perBlock = some chunks) :
    acquiredChunks f (n + 1) = acquiredChunks f n + chunks.length := by
  rw [acquiredChunks, List.range_succ, List.map_append, List.sum_append, ← acquiredChunks]
  simp [h]

/-- The chunks that were acquired: given back, in committed blocks, in the current block, the
current one, and reserved. -/
structure Held (f : Factory) (w : EcosWriter) (bs : List Block) (cs : List LocalChunk) : Prop where
  committed : Committed f w bs cs
  acquired : w.released.length + chunksIn bs + cs.length + w.curChunk.toList.length +
    w.reserveChunks.length = acquiredChunks f w.acquired
  reserve : cs = [] → w.curChunk = none → w.reserveChunks = []

theorem held_new (key : Bytes) (term : UInt64) : Held f { key := key, term := term } [] [] :=
  ⟨committed_new key term, rfl, fun _ _ => rfl⟩

theorem Held.getCurChunk (h : Held f w bs cs) {w' : EcosWriter} {c : LocalChunk}
    (hg : getCurChunk f w = .ok (w', c)) : Held f w' bs cs := by
  obtain ⟨hb, hu, hc, hn, -, hcur⟩ := getCurChunk_frame hg
  refine ⟨h.committed.frame hb hu hc hn, ?_, fun _ hnone => by rw [hcur] at hnone; cases hnone⟩
  have hsum := h.acquired
  unfold Client.getCurChunk at hg
  split at hg
  · cases hg
    exact hsum
  · rename_i hnone
    rw [hnone] at hsum
    split at hg
    · cases hg
    · cases hg
    · rename_i chunk rest hres
      cases hg
      unfold Client.reserve at hres
      dsimp only
      split_ifs at hres ⊢ with hempty
      · rw [acquiredChunks_succ hres, ← hsum, hempty]
        simp only [Option.toList_none, Option.toList_some, List.length_nil, List.length_cons]
        omega
      · rw [← hsum, Option.some.inj hres]
        simp only [Option.toList_none, Option.toList_some, List.length_nil, List.length_cons]
        omega

/-- A chunk is committed: it goes into the current block, and with the last one of a block the
reserved chunks are given back. -/
theorem Held.commitCurChunk (h : Held f w bs cs) {c : LocalChunk} (hc : w.curChunk = some c) :
    ∃ bs' cs', Held f (commitCurChunk f w) bs' cs' := by
  have hcommitted := h.committed.commitCurChunk hc
  have hsum := h.acquired
  rw [hc] at hsum
  by_cases hfull : cs.length + 1 = f.perBlock
  · rw [if_pos hfull, if_pos hfull] at hcommitted
    refine ⟨_, _, hcommitted, ?_, fun _ _ => ?_⟩
    · rw [commitCurChunk_full h.committed hc hfull, ← hsum]
      simp [chunksIn, blockOf]
      omega
    · rw [commitCurChunk_full h.committed hc hfull]
  · rw [if_neg hfull, if_neg hfull, List.append_nil] at hcommitted
    refine ⟨_, _, hcommitted, ?_, fun hnil => by simp at hnil⟩
    rw [commitCurChunk_not_full h.committed hc hfull, ← hsum]
    simp
    omega

theorem Held.putChunk (h : Held f w bs cs) {c : LocalChunk} (hc : w.curChunk = some c)
    (c' : LocalChunk) : ∃ bs' cs', Held f (putChunk f w c') bs' cs' := by
  have hset : Held f { w with curChunk := some c' } bs cs := by
    refine ⟨h.committed.frame rfl rfl rfl rfl, ?_, fun _ hnone => by cases hnone⟩
    have hsum := h.acquired
    rwa [hc] at hsum
  unfold Client.putChunk
  dsimp only
  split_ifs
  · exact hset.commitCurChunk rfl
  · exact ⟨_, _, hset⟩

theorem rounds_held (f : Factory) : Rounds f fun w => ∃ bs cs, Held f w bs cs where
  getCurChunk := by
    rintro w w' c ⟨bs, cs, h⟩ hg
    exact ⟨bs, cs, h.getCurChunk hg⟩
  putChunk := by
    rintro w c c' ⟨bs, cs, h⟩ hc
    exact h.putChunk hc c'
  frame := by
    rintro w size hashed ⟨bs, cs, h⟩
    exact ⟨bs, cs, h.committed.frame rfl rfl rfl rfl, h.acquired, h.reserve⟩

theorem receiveFinished_eq_none {n : ℕ} {completions : List (ℕ × Bool)}
    (h : completions.length < n) : receiveFinished f n w completions = none := by
  induction n generalizing w completions with
  | zero => cases h
  | succ n ih =>
    rcases completions with _ | ⟨⟨i, uploaded⟩, completions⟩
    · rfl
    · exact ih (Nat.lt_of_succ_lt_succ h)

/-- The uploads that were started are all received and go to `abortBlock`, and all chunks that the
writer has acquired are back in the pool. -/
structure CleanAbort (f : Factory) (w : EcosWriter) (r : AbortResult) : Prop where
  err : r.err = none
  aborted : r.aborted.Perm w.uploads
  curChunk : r.writer.curChunk = none
  reserveChunks : r.writer.reserveChunks = []
  curBlock : r.writer.curBlock = none
  blocks : ∀ (i : ℕ) (b : Block), r.writer.blocks[i]? = some b → b.chunks = []
  released : r.writer.released.length = acquiredChunks f r.writer.acquired

/-- The open block is counted, and no completion comes for it. -/
theorem Committed.abort_eq_none (h : Committed f w bs cs) (hstatus : w.status = .READING)
    (hcs : cs ≠ []) {completions : List (ℕ × Bool)} (ha : Arrive w completions) :
    abort f w completions = none := by
  have hcount : w.blockCount = bs.length + 1 := by rw [h.blockCount, if_neg hcs]
  have hlen := ha.length h.numbered
  rw [abort, if_neg (not_not.mpr hstatus), receiveFinished_eq_none (by omega)]
  rfl

theorem Arrive.chunks_eq_nil (h : Numbered w bs) {completions : List (ℕ × Bool)}
    (ha : Arrive w completions) {w₀ w' : EcosWriter} {bs' : List Block}
    (hall : ReceivedAll f w₀ bs completions w' bs') : ∀ b ∈ bs', b.chunks = [] := by
  intro b hb
  obtain ⟨j, hj, rfl⟩ := List.getElem_of_mem hb
  have hj' : j < bs.length := hall.length ▸ hj
  obtain ⟨ok, he⟩ := ha.exists_outcome h hj'
  have hget := (hall.uploaded _ he j _ rfl (List.getElem?_eq_getElem hj')).1
  rw [List.getElem?_eq_getElem hj, Option.some.injEq] at hget
  rw [hget]
  rfl

theorem Held.abort_eq (h : Held f w bs []) (hstatus : w.status = .READING)
    {completions : List (ℕ × Bool)} (ha : Arrive w completions) :
    ∃ r, abort f w completions = some r ∧ (CleanAbort f w r ↔ w.curChunk = none) := by
  have hcount : w.blockCount = completions.length := by
    rw [h.committed.blockCount, if_pos rfl, ha.length h.committed.numbered]
    rfl
  have hnum : Numbered { w with status := .ABORTED } bs :=
    ⟨h.committed.numbered.get, h.committed.numbered.size, h.committed.numbered.uploads⟩
  obtain ⟨w', bs', hrecv, hall⟩ := receiveFinished_spec (f := f) hnum (ha.awaited h.committed)
  have hchunks := ha.chunks_eq_nil h.committed.numbered hall
  have hzero : chunksIn bs' = 0 := by
    rw [chunksIn, List.sum_eq_zero_iff]
    intro n hn
    obtain ⟨b, hb, rfl⟩ := List.mem_map.mp hn
    rw [hchunks b hb, List.length_nil]
  have hreleased := hall.released
  rw [hzero] at hreleased
  have hcur : w'.curChunk = w.curChunk := by rw [hall.frame]
  have hres : w'.reserveChunks = w.reserveChunks := by rw [hall.frame]
  have hblock : w'.curBlock = w.curBlock := by rw [hall.frame]
  have hacq : w'.acquired = w.acquired := by rw [hall.frame]
  refine ⟨⟨w', none, completions.map Prod.fst⟩, ?_, fun hclean => hcur ▸ hclean.curChunk,
    fun hnone => ⟨rfl, ha, hcur.trans hnone, hres.trans (h.reserve rfl hnone), ?_, ?_, ?_⟩⟩
  · rw [← hcount] at hrecv
    rw [abort, if_neg (not_not.mpr hstatus), hrecv, hcount, List.take_length]
    rfl
  · rw [hblock, h.committed.curBlock, if_pos rfl]
  · intro i b hb
    rw [hall.numbered.get] at hb
    split_ifs at hb
    exact hchunks b (List.mem_of_getElem? hb)
  · have hsum := h.acquired
    rw [hnone, h.reserve rfl hnone] at hsum
    rw [hacq, ← hsum]
    simpa using hreleased

theorem Committed.curBlock_eq_none_iff (h : Committed f w bs cs) : w.curBlock = none ↔ cs = [] := by
  rcases h.curBlock_cases with ⟨hcs, hc, -⟩ | ⟨hcs, hc, -⟩
  · exact iff_of_true hc hcs
  · exact iff_of_false (by rw [hc]; nofun) hcs

/-- The uploads complete in the order in which they were started. -/
theorem exists_arrive (w : EcosWriter) : ∃ completions, Arrive w completions := by
  refine ⟨w.uploads.map fun i => (i, true), ?_⟩
  rw [Arrive, List.map_map]
  exact List.Perm.of_eq (List.map_id _)

theorem length_flatMap_const {α : Type} {l : List α} {g : α → Bytes} {n : ℕ}
    (h : ∀ a ∈ l, (g a).length = n) : (l.flatMap g).length = l.length * n := by
  rw [List.length_flatMap, List.map_congr_left h, List.map_const', List.sum_replicate, smul_eq_mul]

theorem length_fullChunks (h : ∀ c ∈ cs, IsFull f c) :
    (cs.flatMap LocalChunk.content).length = cs.length * f.chunkSize :=
  length_flatMap_const fun c hc => by rw [(h c hc).content, (h c hc).1]

/-- A writer in which all bytes are in full blocks has neither a block nor a chunk open. -/
theorem Filling.length_mod {total : Bytes} (hf : PoolOk f) (h : Filling f w bs cs total) :
    total.length % (f.perBlock * f.chunkSize) = 0 ↔ cs = [] ∧ w.curChunk = none := by
  have hblocks : (bs.flatMap Block.bytes).length = bs.length * (f.perBlock * f.chunkSize) := by
    refine length_flatMap_const fun b hb => ?_
    obtain ⟨cs', rfl, hlen, hfull⟩ := h.fullBlocks b hb
    rw [bytes_blockOf, length_fullChunks hfull, hlen]
  -- what follows the blocks is shorter than a block
  obtain ⟨r, hr, hlt, hzero⟩ : ∃ r, (w.curChunk.toList.flatMap LocalChunk.content).length = r ∧
      r < f.chunkSize ∧ (r = 0 ↔ w.curChunk = none) := by
    cases hc : w.curChunk with
    | none => exact ⟨0, rfl, hf.chunkSize_pos, by simp⟩
    | some c =>
      obtain ⟨hlen, hpos, hlt⟩ := h.curChunk c hc
      refine ⟨f.chunkSize - c.freeSize, ?_, by omega, ?_⟩
      · rw [Option.toList_some, List.flatMap_singleton, length_content, hlen]
      · simp only [reduceCtorEq, iff_false]
        omega
  have hrest : cs.length * f.chunkSize + r < f.perBlock * f.chunkSize := by
    have hmul := Nat.mul_le_mul_right f.chunkSize (Nat.succ_le_of_lt h.below)
    rw [Nat.succ_mul] at hmul
    omega
  have htotal : total.length =
      bs.length * (f.perBlock * f.chunkSize) + (cs.length * f.chunkSize + r) := by
    rw [← h.content, List.length_append, List.length_append, hblocks,
      length_fullChunks h.fullChunks, hr, Nat.add_assoc]
  rw [htotal, Nat.mul_add_mod', Nat.mod_eq_of_lt hrest, Nat.add_eq_zero_iff, hzero,
    Nat.mul_eq_zero, List.length_eq_zero_iff, or_iff_left hf.chunkSize_pos.ne']

/-- `Abort` does what it has to exactly if no block and no chunk is open. If a block is open it
waits for ever. With a pool that does what it is asked for, this is to say that the bytes written
fill whole blocks. -/
theorem cleanAbort_iff (f : Factory) (key : Bytes) (term : UInt64) (ps : List Bytes) :
    let w := writes f { key := key, term := term } ps
    ((∀ completions, Arrive w completions → ∃ r, abort f w completions = some r ∧
        CleanAbort f w r) ↔ w.curBlock = none ∧ w.curChunk = none) ∧
      ((∀ completions, Arrive w completions → abort f w completions = none) ↔ w.curBlock ≠ none) ∧
      (w.blockCount = w.uploads.length ↔ w.curBlock = none) ∧
      (PoolOk f → (w.curBlock = none ∧ w.curChunk = none ↔
        ps.flatten.length % (f.perBlock * f.chunkSize) = 0)) := by
  intro w
  obtain ⟨bs, cs, h⟩ := (rounds_held f).writes ⟨[], [], held_new key term⟩ ps
  have hstatus : w.status = .READING := ((committed_new (f := f) key term).writes ps).1
  obtain ⟨completions, ha⟩ := exists_arrive w
  have hopen := h.committed.curBlock_eq_none_iff
  refine ⟨⟨fun hclean => ?_, ?_⟩, ⟨fun hwaits hnone => ?_, fun hblock completions ha => ?_⟩, ?_,
    fun hf => ?_⟩
  · obtain ⟨r, hr, hclean⟩ := hclean completions ha
    have hcs : cs = [] := by
      by_contra hcs
      rw [h.committed.abort_eq_none hstatus hcs ha] at hr
      cases hr
    subst hcs
    obtain ⟨r', hr', hiff⟩ := h.abort_eq hstatus ha
    rw [hr] at hr'
    cases hr'
    exact ⟨hopen.mpr rfl, hiff.mp hclean⟩
  · rintro ⟨hblock, hchunk⟩ completions ha
    obtain rfl := hopen.mp hblock
    obtain ⟨r, hr, hiff⟩ := h.abort_eq hstatus ha
    exact ⟨r, hr, hiff.mpr hchunk⟩
  · obtain rfl := hopen.mp hnone
    obtain ⟨r, hr, -⟩ := h.abort_eq hstatus ha
    rw [hwaits completions ha] at hr
    cases hr
  · exact h.committed.abort_eq_none hstatus (fun hcs => hblock (hopen.mpr hcs)) ha
  · rw [hopen, h.committed.blockCount, h.committed.numbered.uploads, List.length_range']
    split_ifs <;> simp_all
  · obtain ⟨-, -, -, bs', cs', hfill⟩ := (written_new hf key term).writes hf ps
    rw [hfill.committed.curBlock_eq_none_iff]
    exact (hfill.length_mod hf).symm

/-- Two blocks are written, and their uploads complete in the other order. -/
theorem cleanAbort_iff_twoBlocks :
    let w := writes smallFactory { key := [107], term := 1 } [[1, 2, 3], [4]]
    w.uploads = [1, 2] ∧ ∃ r, abort smallFactory w [(2, true), (1, false)] = some r ∧
      CleanAbort smallFactory w r ∧ r.aborted = [2, 1] := by
  obtain ⟨hclean, -, -, hwhole⟩ := cleanAbort_iff smallFactory [107] 1 [[1, 2, 3], [4]]
  obtain ⟨r, hr, hr'⟩ := hclean.mpr ((hwhole poolOk_smallFactory).mpr (by decide))
    [(2, true), (1, false)] (by decide)
  refine ⟨by decide, r, hr, hr', ?_⟩
  have haborted : (abort smallFactory (writes smallFactory { key := [107], term := 1 }
    [[1, 2, 3], [4]]) [(2, true), (1, false)]).map AbortResult.aborted = some [2, 1] := by decide
  rw [hr] at haborted
  exact Option.some.inj haborted

def twoByteFactory : Factory :=
  { smallFactory with
    chunkSize := 2
    bucketInfo := ⟨[118], [98], [], { keySlotNum := 1, blockSize := 4 }⟩
    acquireMultiple := fun _ n => some (List.replicate n ⟨[0, 0], 2⟩) }

/-- One byte is written. Where it fills a chunk, the block of that chunk is open and counted, and
`Abort` waits for a block that nobody uploads. Where it does not, `Abort` returns; two chunks were
acquired, and none is given back. -/
theorem abort_open_writer :
    let w := writes smallFactory { key := [107], term := 1 } [[1]]
    let w' := writes twoByteFactory { key := [107], term := 1 } [[1]]
    (w.blockCount = 1 ∧ w.uploads = [] ∧ ∀ completions, Arrive w completions →
        abort smallFactory w completions = none) ∧
      (w'.uploads = [] ∧ acquiredChunks twoByteFactory w'.acquired = 2 ∧
        ∃ r, abort twoByteFactory w' [] = some r ∧ r.err = none ∧ r.writer.released = [] ∧
          r.writer.curChunk = some ⟨[1, 0], 1⟩ ∧ r.writer.reserveChunks = [⟨[0, 0], 2⟩]) := by
  refine ⟨⟨by decide, by decide, fun completions ha => ?_⟩, by decide, by decide, _, rfl, rfl,
    by decide, by decide, by decide⟩
  have hnil : completions = [] := by
    have hlen := ha.length_eq
    rw [List.length_map] at hlen
    exact List.length_eq_zero_iff.mp hlen
  rw [hnil]
  decide

namespace Multipart
open Logic

/-- The fields of a job's writer that `Write` and `Abort` work on. -/
def Job.writer (j : Job) : EcosWriter :=
  { key := j.key, term := j.term, status := j.status, partObject := true }

/-- `Write` refuses the writer of a job, so that it never opens a block that is counted. -/
theorem Job.writes_writer (f : Factory) (j : Job) (ps : List Bytes) :
    writes f j.writer ps = j.writer := by
  induction ps with
  | nil => rfl
  | cons p ps ih => exact ih

instance decidableRefused (j : Job) (p : Int32) (victim : Option Errno) :
    Decidable (j.Refused p victim) :=
  inferInstanceAs (Decidable (_ ∨ _ ∨ _))

/-- The blocks whose `DeleteBlock` a successful call requests: the old block of a part that is
written again, and what `Abort` passes to `abortBlock`. -/
def Job.deletes (f : Factory) (j : Job) : Action → List ℕ
  | .writePart p _ victim =>
    if j.Refused p victim ∨ p ∉ j.partIDs then [] else (j.blocks.lookup p).toList
  | .abort =>
    if ¬ j.registered then []
    else
      let completions := j.finishedBlocks.map fun h => (h, true)
      ((Client.abort f j.writer completions).map AbortResult.aborted).getD []
  | _ => []

/-- A step of a job, with the blocks whose `DeleteBlock` was requested so far. -/
def Job.stepDeleting (f : Factory) (s : Job × List ℕ) (a : Action) : Option (Job × List ℕ) :=
  (s.1.step f a).map fun j => (j, s.2 ++ s.1.deletes f a)

/-- The upload goroutine of this block sends on `finishedBlocks`, and nobody will ever receive. -/
def Stuck (f : Factory) (j : Job) (h : ℕ) : Prop :=
  h ∈ j.finishedBlocks ∧ ∀ acts j', run (Job.step f) j acts = some j' → h ∈ j'.finishedBlocks

namespace Job

variable {f : Factory} {j j' : Job} {d : List ℕ} {h : ℕ}

/-- `AbortMultipartUploadJob` is `Abort` of the job's writer. No block is counted, whatever was
tried with `Write`, so it waits for none and passes none to `abortBlock`. -/
theorem abort_writer (hreg : j.registered = true) (ps : List Bytes)
    (completions : List (ℕ × Bool)) :
    Client.abort f (writes f j.writer ps) completions =
      some ⟨j.abort.1.writer, j.abort.2, []⟩ := by
  rw [writes_writer]
  unfold Client.abort Job.abort
  rw [if_neg (not_not.mpr hreg)]
  have hstatus : j.writer.status = j.status := rfl
  by_cases hread : j.status = .READING
  · rw [hstatus, if_neg (not_not.mpr hread), if_neg (not_not.mpr hread)]
    rfl
  · rw [hstatus, if_pos hread, if_pos hread]

theorem deletes_abort (hreg : j.registered = true) : j.deletes f .abort = [] := by
  have habort := abort_writer (f := f) hreg [] (j.finishedBlocks.map fun h => (h, true))
  dsimp only [deletes]
  rw [if_neg (not_not.mpr hreg), show j.writer = writes f j.writer [] from rfl, habort]
  rfl

/-- A job on which only successful calls of `WritePart` were made: its parts are uploaded and not
deleted. -/
structure Intact (j : Job) (d : List ℕ) : Prop where
  tracked : j.Tracked
  reading : j.status = .READING
  current : ∀ p h, j.blocks.lookup p = some h → h ∉ d
  deleted : ∀ h ∈ d, h < j.heap.length
  started : ∀ h < j.heap.length, h ∈ j.uploading ++ j.finishedBlocks
  heap : j.partIDs = [] → j.heap = []

theorem intact_new (key : Bytes) (term : UInt64) :
    Intact (createMultipartUploadJob key term) [] :=
  ⟨tracked_new key term, rfl, fun _ _ _ => List.not_mem_nil, nofun, nofun, fun _ => rfl⟩

theorem Intact.lookup_lt (hj : j.Intact d) {p : Int32} (hp : j.blocks.lookup p = some h) :
    h < j.heap.length := by
  obtain ⟨b, hb, -⟩ := hj.tracked.sound.keyed p h hp
  exact (List.getElem?_eq_some_iff.mp hb).1

theorem Intact.writePart (hj : j.Intact d) {p : Int32} {reader : Reader} {victim : Option Errno}
    (hok : (j.writePart f p reader victim).2.isOk = true) :
    Intact (j.writePart f p reader victim).1 (d ++ j.deletes f (.writePart p reader victim)) := by
  have htracked := hj.tracked.writePart (f := f) p reader victim
  have hout := outcome_writePart (f := f) hj.tracked.sorted p reader victim
  have hold : ∀ h ∈ j.deletes f (.writePart p reader victim), j.blocks.lookup p = some h := by
    intro h hh
    dsimp only [deletes] at hh
    split_ifs at hh
    · cases hh
    · exact Option.mem_toList.mp hh
  generalize j.writePart f p reader victim = r at hout htracked hok
  cases hout with
  | refused e h => cases hok
  | failed e block h hb => cases hok
  | written block h hb =>
    refine ⟨htracked, hj.reading, fun q g hq hg => ?_, fun g hg => ?_, fun g hg => ?_,
      fun hnil => ?_⟩
    · -- the new block is above all others, and the old one was the block of this part only
      rw [withPart, withBlock] at hq
      by_cases hqp : q = p
      · rw [hqp, AList.lookup_insert] at hq
        cases hq
        rcases List.mem_append.mp hg with hg | hg
        · exact Nat.lt_irrefl _ (hj.deleted _ hg)
        · exact Nat.lt_irrefl _ (hj.lookup_lt (hold _ hg))
      · rw [AList.lookup_insert_ne hqp] at hq
        rcases List.mem_append.mp hg with hg | hg
        · exact hj.current q g hq hg
        · exact hqp (hj.tracked.sound.lookup_inj hq (hold g hg))
    · rw [withPart, withBlock, List.length_append, List.length_singleton]
      rcases List.mem_append.mp hg with hg | hg
      · exact Nat.lt_succ_of_lt (hj.deleted g hg)
      · exact Nat.lt_succ_of_lt (hj.lookup_lt (hold g hg))
    · rw [withPart, withBlock, List.length_append, List.length_singleton] at hg
      rw [withPart, withBlock, List.append_assoc]
      rcases Nat.lt_succ_iff_lt_or_eq.mp hg with hg | rfl
      · rcases List.mem_append.mp (hj.started g hg) with hup | hfin
        · exact List.mem_append_left _ hup
        · exact List.mem_append_right _ (List.mem_append_right _ hfin)
      · exact List.mem_append_right _ List.mem_cons_self
    · have hp : p ∈ j.partIDsWith p := mem_partIDsWith.mpr (.inl rfl)
      rw [show j.partIDsWith p = [] from hnil] at hp
      cases hp

theorem Intact.uploadBlock (hj : j.Intact d) {uploaded : Bool}
    (hstep : j.uploadBlock h uploaded = some j') : Intact j' d := by
  have htracked := hj.tracked.uploadBlock hstep
  obtain ⟨block, hblock, hin, rfl⟩ := uploadBlock_cases hstep
  refine ⟨htracked, hj.reading, hj.current, fun g hg => ?_, fun g hg => ?_, fun hnil => ?_⟩
  · rw [List.length_set]
    exact hj.deleted g hg
  · rw [List.length_set] at hg
    by_cases hgh : g = h
    · rw [hgh]
      exact List.mem_append_right _ (List.mem_append_right _ (List.mem_singleton_self h))
    · rcases List.mem_append.mp (hj.started g hg) with hup | hfin
      · exact List.mem_append_left _ ((List.mem_erase_of_ne hgh).mpr hup)
      · exact List.mem_append_right _ (List.mem_append_left _ hfin)
  · rw [hj.heap hnil] at hblock
    cases hblock

theorem intact_run {key : Bytes} {term : UInt64} {acts : List Action}
    (hg : Meets (stepDeleting f) (fun s => s.1.Succeeds f) (createMultipartUploadJob key term, [])
      acts)
    (hr : run (stepDeleting f) (createMultipartUploadJob key term, []) acts = some (j, d)) :
    j.Intact d := by
  refine run_invariant (I := fun s : Job × List ℕ => s.1.Intact s.2) ?_ (intact_new key term) hg hr
  rintro ⟨j, d⟩ a s' hj hok hstep
  obtain ⟨j', hj', rfl⟩ := Option.map_eq_some_iff.mp hstep
  cases a with
  | writePart p reader victim =>
    cases hj'
    exact hj.writePart hok
  | uploadBlock h uploaded =>
    have hsame : d ++ j.deletes f (.uploadBlock h uploaded) = d := List.append_nil d
    rw [hsame]
    exact hj.uploadBlock hj'
  | complete entry parts => exact hok.elim
  | receive h => exact hok.elim
  | commit replies => exact hok.elim
  | abort => exact hok.elim

/-- Nobody receives from the uploads of a job that is neither written to nor completed. -/
theorem finishedBlocks_run {acts : List Action} (hs : j.status ≠ .READING) (hc : j.closing = none)
    (hr : run (step f) j acts = some j') :
    j'.closing = none ∧ (∀ h ∈ j.finishedBlocks, h ∈ j'.finishedBlocks) ∧
      (j.uploading ++ j.finishedBlocks = [] → j'.uploading ++ j'.finishedBlocks = []) := by
  refine (late_run (I := fun j' => j'.closing = none ∧
    (∀ h ∈ j.finishedBlocks, h ∈ j'.finishedBlocks) ∧
      (j.uploading ++ j.finishedBlocks = [] → j'.uploading ++ j'.finishedBlocks = []))
    (fun j₁ _ j₂ hj _ _ hlate => ?_) ⟨hc, fun _ hh => hh, id⟩ hs hr).1
  obtain ⟨hc, hsub, hempty⟩ := hj
  cases hlate with
  | same => exact ⟨hc, hsub, hempty⟩
  | uploadBlock hstep =>
    obtain ⟨block, -, hin, rfl⟩ := uploadBlock_cases hstep
    refine ⟨hc, fun h hh => List.mem_append_left _ (hsub h hh), fun hnil => ?_⟩
    rw [(List.append_eq_nil_iff.mp (hempty hnil)).1] at hin
    cases hin
  | receive hstep =>
    obtain ⟨c, -, hc', -⟩ := receive_cases hstep
    rw [hc] at hc'
    cases hc'
  | commit hc' hr =>
    rw [hc] at hc'
    cases hc'

theorem stuck_of_finished (hs : j.status ≠ .READING) (hc : j.closing = none)
    (hh : h ∈ j.finishedBlocks) : Stuck f j h :=
  ⟨hh, fun _ _ hr => (finishedBlocks_run hs hc hr).2.1 h hh⟩

/-- An upload that was started gets stuck, now or when it ends. -/
theorem exists_stuck (hj : j.Tracked) (hs : j.status ≠ .READING) (hc : j.closing = none)
    (hh : h ∈ j.uploading ++ j.finishedBlocks) :
    ∃ acts j', run (step f) j acts = some j' ∧ Stuck f j' h := by
  rcases List.mem_append.mp hh with hup | hfin
  · obtain ⟨j', hstep⟩ := hj.exists_uploadBlock hup true
    refine ⟨[.uploadBlock h true], j', by rw [run_cons, step, hstep]; rfl, ?_⟩
    obtain ⟨block, -, -, rfl⟩ := uploadBlock_cases hstep
    exact stuck_of_finished hs hc (List.mem_append_right _ (List.mem_singleton_self h))
  · exact ⟨[], j, rfl, stuck_of_finished hs hc hfin⟩

theorem abort_eq (h : j.abort.2 = none) :
    j.abort.1 = { j with status := .ABORTED, registered := false } := by
  revert h
  unfold Job.abort
  split_ifs
  · nofun
  · exact fun _ => rfl
  · nofun

end Job

/-- An abort that returns nil has requested a `DeleteBlock` for all parts, and leaves no upload
that waits for ever, exactly if there are no parts. -/
theorem aborted_iff (f : Factory) (key : Bytes) (term : UInt64) (acts : List Action)
    {j j' : Job} {d d' : List ℕ}
    (hg : Meets (Job.stepDeleting f) (fun s => s.1.Succeeds f)
      (createMultipartUploadJob key term, []) acts)
    (hr : run (Job.stepDeleting f) (createMultipartUploadJob key term, []) acts = some (j, d))
    (h : Job.stepDeleting f (j, d) .abort = some (j', d')) (hnil : j.abort.2 = none) :
    ((∀ p ∈ j.partIDs, ∃ g, j.blocks.lookup p = some g ∧ g ∈ d') ↔ j.partIDs = []) ∧
      ((∀ acts' j'', run (Job.step f) j' acts' = some j'' → ∀ g, ¬ Stuck f j'' g) ↔
        j.partIDs = []) := by
  have hj := Job.intact_run hg hr
  obtain ⟨j₁, hj₁, heq⟩ := Option.map_eq_some_iff.mp h
  cases hj₁
  have htracked := Job.tracked_step (f := f) hj.tracked (a := .abort) rfl
  rw [Job.abort_eq hnil] at heq htracked
  rw [Job.deletes_abort (hj.tracked.registered hj.reading), List.append_nil] at heq
  cases heq
  have hclosing : j.closing = none :=
    Option.eq_none_iff_forall_ne_some.mpr fun c hc => hj.tracked.sound.reading c hc hj.reading
  refine ⟨⟨fun hall => ?_, fun hnone p hp => ?_⟩, fun hall => ?_,
    fun hnone acts' j'' hrun g hg => ?_⟩
  · refine List.eq_nil_iff_forall_not_mem.mpr fun p hp => ?_
    obtain ⟨g, hlookup, hdeleted⟩ := hall p hp
    exact hj.current p g hlookup hdeleted
  · rw [hnone] at hp
    cases hp
  · refine List.eq_nil_iff_forall_not_mem.mpr fun p hp => ?_
    obtain ⟨g, hlookup⟩ := hj.tracked.sound.listed p hp
    obtain ⟨acts', j'', hrun, hstuck⟩ := Job.exists_stuck (f := f) htracked nofun hclosing
      (hj.started g (hj.lookup_lt hlookup))
    exact hall acts' j'' hrun g hstuck
  · -- without a block there is no upload, and there will be none
    have hempty : j.uploading ++ j.finishedBlocks = [] := by
      refine List.eq_nil_iff_forall_not_mem.mpr fun h hh => ?_
      have hlt := hj.tracked.lt_length hh
      rw [hj.heap hnone] at hlt
      cases hlt
    have hend := (Job.finishedBlocks_run (j := { j with status := .ABORTED, registered := false })
      nofun hclosing hrun).2.2 hempty
    have hin := hg.1
    rw [(List.append_eq_nil_iff.mp hend).2] at hin
    cases hin

theorem aborted_iff_noParts :
    ∃ j', Job.stepDeleting hashing (createMultipartUploadJob [107] 1, []) .abort = some (j', []) ∧
      ∀ acts' j'', run (Job.step hashing) j' acts' = some j'' → ∀ g, ¬ Stuck hashing j'' g :=
  ⟨_, rfl, (aborted_iff hashing [107] 1 [] trivial rfl rfl rfl).2.mpr rfl⟩

/-- Two parts are written, and the upload of one has ended. The abort returns nil and no
`DeleteBlock` is requested. The upload that has ended waits for ever, and so does the other one
later. -/
theorem aborted_job_keeps_parts :
    ∃ j' j'', run (Job.stepDeleting hashing) (createMultipartUploadJob [107] 1, [])
        (writeTwo ++ [.abort]) = some (j', []) ∧
      (after writeTwo).abort.2 = none ∧ (after writeTwo).partIDs = [1, 2] ∧ Stuck hashing j' 1 ∧
      run (Job.step hashing) j' [.uploadBlock 0 true] = some j'' ∧ Stuck hashing j'' 0 :=
  ⟨_, _, rfl, rfl, by decide, Job.stuck_of_finished nofun rfl (by decide), rfl,
    Job.stuck_of_finished nofun rfl (by decide)⟩

end Multipart

end Ecos.Client
