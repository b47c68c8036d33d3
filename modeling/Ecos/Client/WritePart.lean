import Ecos.Client.Closing
import Ecos.Client.PartBlocks
import Ecos.Logic.KeyLog

namespace Ecos.Client.Multipart
open Go Logic

def Reader.bytes (r : Reader) : Bytes := (r.reads ++ [r.last]).flatten

theorem addPartID_eq_none_iff {ids : List Int32} {p : Int32} (hs : ids.Pairwise (· < ·)) :
    addPartID ids p = none ↔ p ∈ ids := by
  refine ⟨mem_of_addPartID_eq_none, fun hp => ?_⟩
  cases h : addPartID ids p with
  | none => rfl
  | some ids' => exact absurd hp (not_mem_of_addPartID hs h)

namespace Job

variable {f : Factory} {j j' : Job} {p : Int32} {reader : Reader} {victim : Option Errno}

/-- `w.partIDs` after `addPartID`. -/
def partIDsWith (j : Job) (p : Int32) : List Int32 := (addPartID j.partIDs p).getD j.partIDs

theorem mem_partIDsWith {q : Int32} : q ∈ j.partIDsWith p ↔ q = p ∨ q ∈ j.partIDs := by
  unfold partIDsWith
  cases h : addPartID j.partIDs p with
  | none =>
    have hp := mem_of_addPartID_eq_none h
    exact ⟨.inr, fun hq => hq.elim (fun heq => heq ▸ hp) id⟩
  | some ids =>
    obtain ⟨hp, hsub⟩ := addPartID_subset h
    exact ⟨mem_addPartID h, fun hq => hq.elim (fun heq => heq ▸ hp) (hsub q)⟩

theorem sorted_partIDsWith (hs : j.partIDs.Pairwise (· < ·)) (p : Int32) :
    (j.partIDsWith p).Pairwise (· < ·) := by
  unfold partIDsWith
  cases h : addPartID j.partIDs p with
  | none => exact hs
  | some ids => exact sorted_addPartID hs h

/-- `WritePart` returns before it makes a new block. -/
def Refused (j : Job) (p : Int32) (victim : Option Errno) : Prop :=
  j.status ≠ .READING ∨ (p < 1 ∨ 10000 < p) ∨ (p ∈ j.partIDs ∧ j.victimError p victim ≠ none)

theorem Sound.victimError_ne_none_iff (hj : j.Sound) (hp : p ∈ j.partIDs) :
    j.victimError p victim ≠ none ↔
      ∃ b, j.current p = some b ∧ (b.info.pgId = 0 ∨ victim ≠ none) := by
  obtain ⟨b, hb⟩ := hj.listed_current p hp
  unfold victimError
  rw [hb]
  by_cases hpg : b.info.pgId = 0
  · simp [hpg]
  · simp [hpg]

theorem writePart_of_refused (hs : j.partIDs.Pairwise (· < ·)) (h : j.Refused p victim) :
    ∃ e, j.writePart f p reader victim = (j, .error e) := by
  unfold writePart
  split_ifs with hread hrange
  · exact ⟨_, rfl⟩
  · exact ⟨_, rfl⟩
  · obtain ⟨hp, hv⟩ := (h.resolve_left hread).resolve_left hrange
    obtain ⟨e, he⟩ := Option.ne_none_iff_exists'.mp hv
    rw [(addPartID_eq_none_iff hs).mpr hp]
    simp only [he]
    exact ⟨e, rfl⟩

theorem writePart_of_not_refused (h : ¬ j.Refused p victim) :
    j.writePart f p reader victim =
      writeBlock f { j with partIDs := j.partIDsWith p } p reader := by
  simp only [Refused, not_or, not_and, not_not] at h
  obtain ⟨hread, hrange, hvictim⟩ := h
  unfold writePart partIDsWith
  rw [if_neg (not_not.mpr hread), if_neg (by tauto)]
  cases hids : addPartID j.partIDs p with
  | some ids => rfl
  | none =>
    simp only [hvictim (mem_of_addPartID_eq_none hids)]
    rfl

/-- The hash of a part is off, so that its block gets an ID without fail. -/
theorem updateBlockInfo_part (h : ℕ) (b : Block) (hstatus : b.status = .UPLOADING)
    (hoff : b.blockHashType = .off) (hsize : b.info.blockSize = UInt64.ofNat b.bytes.length) :
    ∃ b', b.updateBlockInfo f h = .ok b' ∧ b'.status = .UPLOADING ∧ b'.bytes = b.bytes ∧
      b'.info.blockSize = b.info.blockSize := by
  have hhash : b.genBlockHash f = .ok [] := by
    rw [Block.genBlockHash, if_neg (not_not.mpr hstatus), if_pos hoff]
  have hsum : UInt64.ofNat (b.chunks.map fun c => c.data.length - c.freeSize).sum =
      b.info.blockSize := by
    rw [sum_content, hsize, Block.bytes]
  unfold Block.updateBlockInfo
  rw [hhash]
  refine ⟨_, rfl, hstatus, rfl, ?_⟩
  change (if b.info.partId = 0 then _ else b.info.blockSize) = _
  split_ifs
  · exact hsum
  · rfl

theorem bytes_chunks (data : List Bytes) :
    (data.map fun d => (⟨d, 0⟩ : LocalChunk)).flatMap LocalChunk.content = data.flatten := by
  induction data with
  | nil => rfl
  | cons d data ih =>
    rw [List.map_cons, List.flatMap_cons, ih, List.flatten_cons, LocalChunk.content]
    simp

structure Filled (p : Int32) (bytes : Bytes) (b : Block) : Prop where
  partId : b.info.partId = p
  status : b.status = .UPLOADING
  blockSize : b.info.blockSize = UInt64.ofNat bytes.length
  bytes : b.bytes = bytes

structure HalfFilled (p : Int32) (b : Block) : Prop where
  status : b.status = .READING
  info : b.info = { getNewBlock.info with partId := p }

theorem readPart_spec (f : Factory) (h : ℕ) (p : Int32) (reader : Reader) :
    (∃ e, (readPart f h p reader).2 = some e ∧ HalfFilled p (readPart f h p reader).1) ∨
      ((readPart f h p reader).2 = none ∧ Filled p reader.bytes (readPart f h p reader).1) := by
  have hid := partId_readPart (f := f) h p reader
  revert hid
  unfold readPart
  dsimp only
  split_ifs with hoff
  · exact fun _ => .inl ⟨_, rfl, rfl, rfl⟩
  · cases reader.err with
    | some e => exact fun _ => .inl ⟨e, rfl, rfl, rfl⟩
    | none =>
      have hbytes := bytes_chunks (reader.reads ++ [reader.last])
      have hlen : UInt64.ofNat ((reader.reads ++ [reader.last]).map List.length).sum =
          UInt64.ofNat reader.bytes.length := by
        rw [Reader.bytes, List.length_flatten]
      dsimp only
      generalize hb : ({ getNewBlock with
        status := .UPLOADING
        chunks := (reader.reads ++ [reader.last]).map fun d => (⟨d, 0⟩ : LocalChunk)
        info := { getNewBlock.info with
          partId := p
          blockSize := UInt64.ofNat ((reader.reads ++ [reader.last]).map List.length).sum } } :
          Block) = b
      have hcontent : b.bytes = reader.bytes := by rw [← hb]; exact hbytes
      have hsize : b.info.blockSize = UInt64.ofNat reader.bytes.length := by rw [← hb]; exact hlen
      obtain ⟨b', hupdate, hstatus, hbytes', hsize'⟩ := updateBlockInfo_part (f := f) h b
        (by rw [← hb]) (by rw [← hb]; rfl) (by rw [hsize, hcontent])
      rw [hupdate]
      intro hid
      exact .inr ⟨rfl, hid, hstatus, hsize'.trans hsize, hbytes'.trans hcontent⟩

/-- What a call of `WritePart` can do. -/
inductive Outcome (f : Factory) (j : Job) (p : Int32) (reader : Reader) (victim : Option Errno) :
    Job × Except Errno Bytes → Prop where
  | refused (e : Errno) (h : j.Refused p victim) : Outcome f j p reader victim (j, .error e)
  /-- the error comes after the new block -/
  | failed (e : Errno) (block : Block) (h : ¬ j.Refused p victim) (hb : HalfFilled p block) :
    Outcome f j p reader victim
      ({ j.withBlock p block j.uploading with partIDs := j.partIDsWith p }, .error e)
  | written (block : Block) (h : ¬ j.Refused p victim) (hb : Filled p reader.bytes block) :
    Outcome f j p reader victim (j.withPart p block (j.partIDsWith p), .ok block.info.blockId)

theorem outcome_writePart (hs : j.partIDs.Pairwise (· < ·)) (p : Int32) (reader : Reader)
    (victim : Option Errno) : Outcome f j p reader victim (j.writePart f p reader victim) := by
  by_cases h : j.Refused p victim
  · obtain ⟨e, he⟩ : ∃ e, j.writePart f p reader victim = (j, .error e) :=
      writePart_of_refused hs h
    rw [he]
    exact .refused e h
  · have hspec := readPart_spec f j.heap.length p reader
    rw [writePart_of_not_refused h]
    unfold writeBlock
    dsimp only
    generalize readPart f j.heap.length p reader = r at hspec
    obtain ⟨block, err⟩ := r
    rcases hspec with ⟨e, rfl, hb⟩ | ⟨rfl, hb⟩
    · exact .failed e block h hb
    · exact .written block h hb

theorem complete_frame (entry : Entry) (parts : List Int32) :
    ∃ status closing, (status = j.status ∨ status = .UPLOADING) ∧
      (j.complete entry parts).1 = { j with status, closing } := by
  have hclose : ∃ status closing, (status = j.status ∨ status = .UPLOADING) ∧
      (j.closeMultiPart entry parts).1 = { j with status, closing } := by
    unfold closeMultiPart
    split_ifs
    · exact ⟨j.status, j.closing, .inl rfl, rfl⟩
    · dsimp only
      split
      · exact ⟨_, j.closing, .inr rfl, rfl⟩
      · exact ⟨_, _, .inr rfl, rfl⟩
  unfold complete
  split
  · exact hclose
  · split_ifs <;> first | exact hclose | exact ⟨j.status, j.closing, .inl rfl, rfl⟩

/-- Only `WritePart` touches the parts. -/
theorem step_frame {a : Action} (h : j.step f a = some j')
    (ha : ∀ p reader victim, a ≠ .writePart p reader victim) :
    j'.partIDs = j.partIDs ∧ j'.blocks = j.blocks := by
  cases a with
  | writePart p reader victim => exact absurd rfl (ha p reader victim)
  | uploadBlock g uploaded =>
    obtain ⟨block, -, -, rfl⟩ := uploadBlock_cases h
    exact ⟨rfl, rfl⟩
  | complete entry parts =>
    cases h
    obtain ⟨status, closing, -, heq⟩ := complete_frame (j := j) entry parts
    rw [heq]
    exact ⟨rfl, rfl⟩
  | receive g =>
    obtain ⟨c, block, -, -, -, -, ⟨-, -, rfl⟩ | ⟨-, rfl⟩⟩ := receive_cases h <;> exact ⟨rfl, rfl⟩
  | commit replies =>
    simp only [step, bind, Option.bind_eq_some_iff] at h
    obtain ⟨c, -, r, hr, h⟩ := h
    cases h
    rw [(commit_job hr).2.2]
    exact ⟨rfl, rfl⟩
  | abort =>
    cases h
    unfold abort
    split_ifs <;> exact ⟨rfl, rfl⟩

theorem sorted_step {a : Action} (hs : j.partIDs.Pairwise (· < ·)) (h : j.step f a = some j') :
    j'.partIDs.Pairwise (· < ·) := by
  by_cases ha : ∃ p reader victim, a = .writePart p reader victim
  · obtain ⟨p, reader, victim, rfl⟩ := ha
    cases h
    have hout := outcome_writePart (f := f) hs p reader victim
    generalize j.writePart f p reader victim = r at hout
    cases hout with
    | refused e h => exact hs
    | failed e block h hb => exact sorted_partIDsWith hs p
    | written block h hb => exact sorted_partIDsWith hs p
  · rw [(step_frame h fun p reader victim heq => ha ⟨p, reader, victim, heq⟩).1]
    exact hs

theorem sorted_run {key : Bytes} {term : UInt64} {acts : List Action}
    (h : run (step f) (createMultipartUploadJob key term) acts = some j) :
    j.partIDs.Pairwise (· < ·) :=
  run_preserved (I := fun j : Job => j.partIDs.Pairwise (· < ·))
    (fun _ _ _ hj h => sorted_step hj h) List.Pairwise.nil h

end Job

def SameParts (j j' : Job) : Prop :=
  j'.partIDs = j.partIDs ∧ j'.blocks = j.blocks ∧ ∀ p, j'.current p = j.current p

/-- A call of `WritePart` that fails leaves the parts alone exactly if it fails before it makes the
new block. Otherwise the part is listed with a block that has no ID and no size. -/
theorem failed_unchanged_iff (f : Factory) (key : Bytes) (term : UInt64) (acts : List Action)
    {j j' : Job} (hr : run (Job.step f) (createMultipartUploadJob key term) acts = some j)
    (p : Int32) (hp : ¬ (p < 1 ∨ 10000 < p)) (reader : Reader) (victim : Option Errno) {e : Errno}
    (h : j.writePart f p reader victim = (j', .error e)) :
    (SameParts j j' ↔ j.status ≠ .READING ∨
        (p ∈ j.partIDs ∧ ∃ b, j.current p = some b ∧ (b.info.pgId = 0 ∨ victim ≠ none))) ∧
      (¬ SameParts j j' → p ∈ j'.partIDs ∧
        ∃ b, j'.current p = some b ∧ b.info = { blockId := [], blockSize := 0, partId := p }) := by
  have hout := Job.outcome_writePart (f := f) (Job.sorted_run hr) p reader victim
  have hvictim := fun hlisted =>
    @Job.Sound.victimError_ne_none_iff j p victim (Job.sound_run hr) hlisted
  rw [h] at hout
  cases hout with
  | refused e hrefused =>
    have hsame : SameParts j j := ⟨rfl, rfl, fun _ => rfl⟩
    refine ⟨iff_of_true hsame ?_, fun hnot => absurd hsame hnot⟩
    refine hrefused.imp_right fun h => ?_
    obtain ⟨hlisted, hne⟩ := h.resolve_left hp
    exact ⟨hlisted, (hvictim hlisted).mp hne⟩
  | failed e block hnot hb =>
    have hlookup : (j.withBlock p block j.uploading).blocks.lookup p = some j.heap.length := by
      rw [Job.withBlock, AList.lookup_insert]
    refine ⟨iff_of_false (fun hsame => ?_) fun hcond => hnot (hcond.imp_right fun h => .inr ?_),
      fun _ => ?_⟩
    · -- the old block lies below the end of the heap
      change _ ∧ (j.withBlock p block j.uploading).blocks = j.blocks ∧ _ at hsame
      rw [hsame.2.1] at hlookup
      obtain ⟨b, hheap, -⟩ := (Job.sound_run hr).keyed p _ hlookup
      exact absurd (List.getElem?_eq_some_iff.mp hheap).1 (Nat.lt_irrefl _)
    · exact ⟨h.1, (hvictim h.1).mpr h.2⟩
    · refine ⟨Job.mem_partIDsWith.mpr (.inl rfl), block, ?_, hb.info⟩
      change ((j.withBlock p block j.uploading).blocks.lookup p).bind _ = _
      rw [hlookup]
      exact List.getElem?_concat_length

def broken : Reader := ⟨[[7]], [], some (.other "unexpected EOF")⟩

/-- A part is written again, and its old block cannot be deleted. -/
theorem failed_unchanged_victim :
    ∃ j' e, (after writeTwo).writePart hashing 1 ⟨[[7]], [], none⟩ (some (.other "dial")) =
        (j', .error e) ∧ SameParts (after writeTwo) j' :=
  ⟨_, _, rfl, (failed_unchanged_iff hashing [107] 1 writeTwo rfl 1 (by decide) ⟨[[7]], [], none⟩
    (some (.other "dial")) rfl).1.mpr (.inr ⟨by decide, by decide⟩)⟩

def Job.committed (f : Factory) (j : Job) : Option (List (Int32 × Bytes)) :=
  (j.genPartialMeta f).map fun m => m.blocks.map fun b => (b.partId, b.blockId)

/-- After a read error a new part is committed without an ID, and a part that was uploaded has lost
its block. -/
theorem failed_part_committed :
    ((after writeTwo).writePart hashing 3 broken none).2 = .error (.other "unexpected EOF") ∧
      (after writeTwo).committed hashing = some [(1, [1]), (2, [0])] ∧
      ((after writeTwo).writePart hashing 3 broken none).1.committed hashing =
        some [(1, [1]), (2, [0]), (3, [])] ∧
      ((after writeTwo).writePart hashing 1 broken none).2 = .error (.other "unexpected EOF") ∧
      ((after writeTwo).writePart hashing 1 broken none).1.committed hashing =
        some [(1, []), (2, [0])] := by
  decide

namespace Job

variable {f : Factory} {j j' : Job} {p : Int32} {data : Int32 → Option Bytes}

/-- The calls of `WritePart` succeed; meanwhile uploads may end. -/
def Succeeds (f : Factory) (j : Job) : Action → Prop
  | .writePart p reader victim => (j.writePart f p reader victim).2.isOk = true
  | .uploadBlock _ _ => True
  | _ => False

instance decidableSucceeds (f : Factory) (j : Job) : ∀ a, Decidable (j.Succeeds f a)
  | .writePart _ _ _ => inferInstanceAs (Decidable (_ = true))
  | .uploadBlock _ _ => isTrue trivial
  | .complete _ _ => isFalse id
  | .receive _ => isFalse id
  | .commit _ => isFalse id
  | .abort => isFalse id

/-- The uploads that a step has started, by the address of the block, with the bytes that the block
has there. -/
def started (j j' : Job) : List (ℕ × Bytes) :=
  (j'.uploading.filter fun h => h ∉ j.uploading).filterMap fun h =>
    (j'.heap[h]?).map fun b => (h, b.bytes)

variable (f) in
def uploads : Job → List Action → List (ℕ × Bytes)
  | _, [] => []
  | j, a :: acts =>
    match j.step f a with
    | none => []
    | some j' => j.started j' ++ uploads j' acts

theorem uploads_concat {j₀ : Job} {acts : List Action} {a : Action}
    (hr : run (step f) j₀ acts = some j) (h : j.step f a = some j') :
    uploads f j₀ (acts ++ [a]) = uploads f j₀ acts ++ j.started j' := by
  induction acts generalizing j₀ with
  | nil =>
    rw [run_nil, Option.some.injEq] at hr
    subst hr
    simp [uploads, h]
  | cons b acts ih =>
    rw [run_cons, Option.bind_eq_some_iff] at hr
    obtain ⟨j₁, hj₁, hr⟩ := hr
    rw [List.cons_append, uploads, uploads, hj₁]
    dsimp only
    rw [ih hr, List.append_assoc]

/-- Each part has a block of the size of its data, whose upload has been handed the data. -/
structure Holds (j : Job) (log : List (ℕ × Bytes)) (data : Int32 → Option Bytes) : Prop where
  parts : ∀ p, p ∈ j.partIDs ↔ (data p).isSome
  block : ∀ p bytes, data p = some bytes → ∃ h b, j.blocks.lookup p = some h ∧
    j.heap[h]? = some b ∧ b.info.blockSize = UInt64.ofNat bytes.length ∧
    ∀ bytes', (h, bytes') ∈ log ↔ bytes' = bytes
  logged : ∀ e ∈ log, e.1 < j.heap.length
  uploading : ∀ h ∈ j.uploading, h < j.heap.length

variable {log : List (ℕ × Bytes)}

theorem Holds.started_withPart (hd : j.Holds log data) (block : Block) (partIDs : List Int32) :
    j.started (j.withPart p block partIDs) = [(j.heap.length, block.bytes)] := by
  have hnew : j.heap.length ∉ j.uploading := fun h => absurd (hd.uploading _ h) (lt_irrefl _)
  simp [started, withPart, withBlock, hnew]

theorem Holds.writePart (hd : j.Holds log data) {bytes : Bytes} {block : Block}
    (hb : Filled p bytes block) :
    (j.withPart p block (j.partIDsWith p)).Holds
      (log ++ j.started (j.withPart p block (j.partIDsWith p)))
      (Function.update data p (some bytes)) := by
  rw [hd.started_withPart]
  refine ⟨fun q => ?_, fun q bytes' hq => ?_, fun e he => ?_, fun h hh => ?_⟩
  · change q ∈ j.partIDsWith p ↔ _
    rw [mem_partIDsWith, hd.parts]
    by_cases hqp : q = p
    · simp [hqp]
    · simp [hqp]
  · by_cases hqp : q = p
    · -- the upload of the new block is the only one that is logged under its number
      rw [hqp, Function.update_self] at hq
      cases hq
      refine ⟨j.heap.length, block, ?_, List.getElem?_concat_length, hb.blockSize, fun bytes' => ?_⟩
      · rw [hqp, withPart, withBlock, AList.lookup_insert]
      · have hnot : ∀ d, (j.heap.length, d) ∉ log := fun d hd' =>
          absurd (hd.logged _ hd') (lt_irrefl _)
        simp [hnot, hb.bytes]
    · rw [Function.update_of_ne hqp] at hq
      obtain ⟨h, b, hlookup, hheap, hsize, hlog⟩ := hd.block q bytes' hq
      have hlt : h < j.heap.length := (List.getElem?_eq_some_iff.mp hheap).1
      refine ⟨h, b, ?_, ?_, hsize, fun d => ?_⟩
      · rw [withPart, withBlock, AList.lookup_insert_ne hqp, hlookup]
      · exact (List.getElem?_append_left hlt).trans hheap
      · rw [List.mem_append, hlog]
        simp [hlt.ne]
  · change e.1 < (j.heap ++ [block]).length
    rw [List.length_append, List.length_singleton]
    rcases List.mem_append.mp he with he | he
    · exact Nat.lt_succ_of_lt (hd.logged e he)
    · rw [List.mem_singleton.mp he]
      exact Nat.lt_succ_self _
  · change h < (j.heap ++ [block]).length
    rw [List.length_append, List.length_singleton]
    rcases List.mem_append.mp hh with hh | hh
    · exact Nat.lt_succ_of_lt (hd.uploading h hh)
    · rw [List.mem_singleton.mp hh]
      exact Nat.lt_succ_self _

/-- When an upload ends, its block keeps its info. -/
theorem Holds.uploadBlock (hd : j.Holds log data) {h : ℕ} {uploaded : Bool}
    (hstep : j.step f (.uploadBlock h uploaded) = some j') :
    j'.Holds (log ++ j.started j') data := by
  obtain ⟨block, hblock, -, rfl⟩ := uploadBlock_cases hstep
  have hstarted : (j.uploading.erase h).filter (fun g => g ∉ j.uploading) = [] := by
    rw [List.filter_eq_nil_iff]
    intro g hg
    simpa using List.mem_of_mem_erase hg
  rw [started, hstarted, List.filterMap_nil, List.append_nil]
  refine ⟨hd.parts, fun q bytes hq => ?_, fun e he => ?_, fun g hg => ?_⟩
  · obtain ⟨g, b, hlookup, hheap, hsize, hlog⟩ := hd.block q bytes hq
    have hend : Ended { block with status := uploadStatus uploaded, chunks := [] } :=
      ended_uploadStatus rfl
    obtain ⟨b', hb', hinfo, -⟩ := getElem?_set_ended hblock hend rfl hheap
    exact ⟨g, b', hlookup, hb', by rw [hinfo, hsize], hlog⟩
  · rw [List.length_set]
    exact hd.logged e he
  · rw [List.length_set]
    exact hd.uploading g (List.mem_of_mem_erase hg)

end Job

def Action.part : Action → Option (Int32 × Bytes)
  | .writePart p reader _ => some (p, reader.bytes)
  | _ => none

def lastWritten (acts : List Action) : Int32 → Option Bytes :=
  replay (fun _ => none) (puts (acts.filterMap Action.part))

theorem lastWritten_concat (acts : List Action) (a : Action) :
    lastWritten (acts ++ [a]) = replay (lastWritten acts) (puts a.part.toList) := by
  rw [lastWritten, List.filterMap_append, puts, List.map_append, replay_append]
  cases h : a.part <;> simp [lastWritten, puts, h]

namespace Job

variable {f : Factory} {j j' : Job}

theorem holds_step {acts : List Action} {log : List (ℕ × Bytes)} {a : Action}
    (hs : j.partIDs.Pairwise (· < ·)) (hd : j.Holds log (lastWritten acts)) (hok : j.Succeeds f a)
    (h : j.step f a = some j') : j'.Holds (log ++ j.started j') (lastWritten (acts ++ [a])) := by
  rw [lastWritten_concat]
  cases a with
  | writePart p reader victim =>
    cases h
    have hout := outcome_writePart (f := f) hs p reader victim
    rw [Succeeds] at hok
    generalize j.writePart f p reader victim = r at hout hok
    cases hout with
    | refused e h => cases hok
    | failed e block h hb => cases hok
    | written block h hb => exact hd.writePart hb
  | uploadBlock g uploaded => exact hd.uploadBlock h
  | complete | receive | commit | abort => exact hok.elim

theorem holds_run {key : Bytes} {term : UInt64} {acts : List Action}
    (hok : Meets (step f) (Succeeds f) (createMultipartUploadJob key term) acts)
    (hr : run (step f) (createMultipartUploadJob key term) acts = some j) :
    j.Holds (uploads f (createMultipartUploadJob key term) acts) (lastWritten acts) := by
  have hall := run_history (H := fun acts j =>
      run (step f) (createMultipartUploadJob key term) acts = some j ∧
        j.partIDs.Pairwise (· < ·) ∧
        j.Holds (uploads f (createMultipartUploadJob key term) acts) (lastWritten acts))
    ?_ ?_ hok hr
  · exact hall.2.2
  · rintro acts a j j' ⟨hr, hs, hd⟩ hok h
    refine ⟨by rw [run_append, hr, Option.bind_some, run_cons, h]; rfl, sorted_step hs h, ?_⟩
    rw [uploads_concat hr h]
    exact holds_step hs hd hok h
  · refine ⟨rfl, List.Pairwise.nil, fun p => ?_, fun p bytes hp => (by cases hp),
      fun e he => (by cases he), fun h hh => (by cases hh)⟩
    simp [createMultipartUploadJob, lastWritten, puts]

theorem exists_mapM {α β : Type} {g : α → Option β} {l : List α} (h : ∀ a ∈ l, ∃ b, g a = some b) :
    ∃ bs, l.mapM g = some bs := by
  induction l with
  | nil => exact ⟨[], rfl⟩
  | cons a l ih =>
    obtain ⟨b, hb⟩ := h a List.mem_cons_self
    obtain ⟨bs, hbs⟩ := ih fun x hx => h x (List.mem_cons_of_mem a hx)
    exact ⟨b :: bs, by rw [List.mapM_cons, hb, hbs]; rfl⟩

theorem Sound.exists_genPartialMeta (hj : j.Sound) : ∃ m, j.genPartialMeta f = some m := by
  obtain ⟨bs, hbs⟩ : ∃ bs, j.partIDs.mapM (fun p => (j.current p).map Block.info) = some bs := by
    refine exists_mapM fun p hp => ?_
    obtain ⟨b, hb⟩ := hj.listed_current p hp
    exact ⟨b.info, by rw [hb, Option.map_some]⟩
  unfold genPartialMeta
  rw [hbs]
  exact ⟨_, rfl⟩

/-- The listed blocks are those of the parts, in the same order. -/
theorem Sound.partIds_genPartialMeta (hj : j.Sound) {m : ObjectMeta}
    (h : j.genPartialMeta f = some m) : m.blocks.map BlockInfo.partId = j.partIDs ∧
      ∀ b ∈ m.blocks, ∃ block, j.current b.partId = some block ∧ block.info = b := by
  obtain ⟨hblocks, -⟩ := genPartialMeta_eq h
  have hinfo : ∀ p b, (j.current p).map Block.info = some b → b.partId = p := by
    intro p b hb
    obtain ⟨block, hcur, rfl⟩ := Option.map_eq_some_iff.mp hb
    obtain ⟨g, hg, hblock⟩ := Option.bind_eq_some_iff.mp hcur
    obtain ⟨block', hblock', hid⟩ := hj.keyed p g hg
    rw [hblock] at hblock'
    cases hblock'
    exact hid
  rw [infos] at hblocks
  generalize j.partIDs = ids at hblocks
  generalize m.blocks = bs at hblocks
  induction ids generalizing bs with
  | nil =>
    rw [List.map_nil, List.map_eq_nil_iff] at hblocks
    subst hblocks
    exact ⟨rfl, fun _ hb => absurd hb List.not_mem_nil⟩
  | cons p ids ih =>
    cases bs with
    | nil => cases hblocks
    | cons b bs =>
      rw [List.map_cons, List.map_cons, List.cons.injEq] at hblocks
      obtain ⟨hids, hall⟩ := ih bs hblocks.2
      have hp := hinfo p b hblocks.1.symm
      refine ⟨by rw [List.map_cons, hp, hids], List.forall_mem_cons.mpr ⟨?_, hall⟩⟩
      rw [hp]
      exact Option.map_eq_some_iff.mp hblocks.1.symm

theorem objSize_genPartialMeta {m : ObjectMeta} (h : j.genPartialMeta f = some m)
    {size : BlockInfo → ℕ} (hsize : ∀ b ∈ m.blocks, b.blockSize = UInt64.ofNat (size b)) :
    m.objSize = UInt64.ofNat (m.blocks.map size).sum := by
  obtain ⟨-, hobj⟩ := genPartialMeta_eq h
  have hmod : (m.blocks.map fun b => b.blockSize.toNat) =
      (m.blocks.map size).map (· % 2 ^ 64) := by
    rw [List.map_map]
    refine List.map_congr_left fun b hb => ?_
    rw [hsize b hb, UInt64.toNat_ofNat']
    rfl
  rw [← UInt64.toNat_inj, hobj, hmod, ← List.sum_nat_mod, UInt64.toNat_ofNat']

end Job

/-- The object lists each part once and in order. Its block is as long as the data that the part was
given last, and its upload was handed just that. -/
structure Content (j : Job) (log : List (ℕ × Bytes)) (data : Int32 → Option Bytes)
    (m : ObjectMeta) : Prop where
  ascending : (m.blocks.map BlockInfo.partId).Pairwise (· < ·)
  parts : ∀ p, p ∈ m.blocks.map BlockInfo.partId ↔ (data p).isSome
  block : ∀ b ∈ m.blocks, ∃ h bytes, j.blocks.lookup b.partId = some h ∧
    (j.heap[h]?).map Block.info = some b ∧ data b.partId = some bytes ∧
    b.blockSize = UInt64.ofNat bytes.length ∧ ∀ bytes', (h, bytes') ∈ log ↔ bytes' = bytes
  objSize : m.objSize =
    UInt64.ofNat (m.blocks.map fun b => ((data b.partId).getD []).length).sum

/-- Whatever parts are written and in whatever order, `genPartialMeta` lists what was written
last. -/
theorem content_of_parts (f : Factory) (key : Bytes) (term : UInt64) (acts : List Action) {j : Job}
    (hok : Meets (Job.step f) (Job.Succeeds f) (createMultipartUploadJob key term) acts)
    (hr : run (Job.step f) (createMultipartUploadJob key term) acts = some j) :
    ∃ m, j.genPartialMeta f = some m ∧
      Content j (Job.uploads f (createMultipartUploadJob key term) acts) (lastWritten acts) m := by
  have hj := Job.sound_run hr
  have hd := Job.holds_run hok hr
  obtain ⟨m, hm⟩ := hj.exists_genPartialMeta (f := f)
  obtain ⟨hids, hcurrent⟩ := hj.partIds_genPartialMeta hm
  have hblock : ∀ b ∈ m.blocks, ∃ h bytes, j.blocks.lookup b.partId = some h ∧
      (j.heap[h]?).map Block.info = some b ∧ lastWritten acts b.partId = some bytes ∧
      b.blockSize = UInt64.ofNat bytes.length ∧
      ∀ bytes', (h, bytes') ∈ Job.uploads f (createMultipartUploadJob key term) acts ↔
        bytes' = bytes := by
    intro b hb
    obtain ⟨block, hcur, hinfo⟩ := hcurrent b hb
    have hlisted : b.partId ∈ j.partIDs := hids ▸ List.mem_map_of_mem hb
    obtain ⟨bytes, hbytes⟩ := Option.isSome_iff_exists.mp ((hd.parts _).mp hlisted)
    obtain ⟨h, block', hlookup, hheap, hsize, hlog⟩ := hd.block _ bytes hbytes
    rw [Job.current, hlookup, Option.bind_some, hheap] at hcur
    cases hcur
    exact ⟨h, bytes, hlookup, by rw [hheap, Option.map_some, hinfo], hbytes, hinfo ▸ hsize, hlog⟩
  refine ⟨m, hm, by rw [hids]; exact Job.sorted_run hr, fun p => by rw [hids, hd.parts], hblock, ?_⟩
  refine Job.objSize_genPartialMeta hm fun b hb => ?_
  obtain ⟨h, bytes, -, -, hbytes, hsize, -⟩ := hblock b hb
  rw [hbytes, hsize, Option.getD_some]

/-- Out of order, with a part that is written again, a reader whose data comes with `io.EOF`, and an
empty part. The first upload of part 2 has ended. -/
def outOfOrder : List Action :=
  [.writePart 2 ⟨[[3]], [], none⟩ none, .writePart 7 ⟨[], [], none⟩ none, .uploadBlock 0 true,
    .writePart 1 ⟨[[], [1]], [2], none⟩ none, .writePart 2 ⟨[[4], [5]], [6], none⟩ none]

theorem content_of_parts_outOfOrder :
    lastWritten outOfOrder 1 = some [1, 2] ∧ lastWritten outOfOrder 2 = some [4, 5, 6] ∧
      lastWritten outOfOrder 7 = some [] ∧
      ∃ m, (after outOfOrder).genPartialMeta hashing = some m ∧
        Content (after outOfOrder)
          (Job.uploads hashing (createMultipartUploadJob [107] 1) outOfOrder)
          (lastWritten outOfOrder) m :=
  ⟨by decide, by decide, by decide, content_of_parts hashing [107] 1 outOfOrder (by decide) rfl⟩

end Ecos.Client.Multipart
