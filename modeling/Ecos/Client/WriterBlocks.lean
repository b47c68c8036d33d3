import Ecos.BlockReferences
import Ecos.Logic.Ledger

namespace Ecos.Client.WriterBlocks
open Go Logic BlockReferences

/-- An `EcosWriter` without its chunks. -/
structure Writer where
  bucketInfo : BucketInfo
  key : Bytes
  status : BlockStatus := .READING
  /-- whether there is a block that is counted and not yet committed -/
  curBlock : Bool := false
  blocks : List BlockInfo := []
  uploading : List BlockInfo := []
  /-- uploaded blocks that wait at the channel -/
  finishedBlocks : List BlockInfo := []
  /-- how many blocks `Close` or `Abort` has received -/
  received : ℕ := 0

namespace Writer

def blockCount (w : Writer) : ℕ := w.blocks.length + if w.curBlock then 1 else 0

def getCurBlock (w : Writer) : Option Writer :=
  if w.status = .READING ∧ ¬w.curBlock then some { w with curBlock := true } else none

def commitCurBlock (w : Writer) (info : BlockInfo) : Option Writer :=
  if w.status = .READING ∧ w.curBlock then
    some { w with
      curBlock := false, blocks := w.blocks ++ [info], uploading := w.uploading ++ [info] }
  else none

/-- The end of `uploadBlock`. -/
def uploadBlock (w : Writer) (info : BlockInfo) : Option Writer :=
  if info ∈ w.uploading then
    some { w with
      uploading := w.uploading.erase info, finishedBlocks := w.finishedBlocks ++ [info] }
  else none

/-- `Close` up to its loop, once the current block is committed. -/
def close (w : Writer) : Option Writer :=
  if w.status = .READING ∧ ¬w.curBlock then some { w with status := .UPLOADING } else none

/-- `Abort` up to its loop. The current block stays counted. -/
def abort (w : Writer) : Option Writer :=
  if w.status = .READING then some { w with status := .ABORTED } else none

/-- A round of the loop of `Close` or `Abort`. -/
def receive (w : Writer) (info : BlockInfo) : Option Writer :=
  if (w.status = .UPLOADING ∨ w.status = .ABORTED) ∧ w.received < w.blockCount ∧
      info ∈ w.finishedBlocks then
    some { w with
      finishedBlocks := w.finishedBlocks.erase info, received := w.received + 1 }
  else none

/-- The end of `Close`. -/
def finish (w : Writer) : Option Writer :=
  if w.status = .UPLOADING ∧ w.received = w.blockCount then some { w with status := .FINISHED }
  else none

/-- `Close` or `Abort` has returned. -/
def Done (w : Writer) : Prop :=
  w.status = .FINISHED ∨ (w.status = .ABORTED ∧ w.received = w.blockCount)

instance decidableDone (w : Writer) : Decidable w.Done :=
  inferInstanceAs (Decidable (_ ∨ _))

def active (w : Writer) : Bool := w.status = .READING ∨ w.status = .UPLOADING

def maker (w : Writer) : Maker Bytes where
  made := blockIds w.blocks
  live := if w.active then blockIds w.blocks else []
  held :=
    if w.active then blockIds w.blocks
    else if w.status = .ABORTED then blockIds (w.uploading ++ w.finishedBlocks)
    else []
  pending := blockIds w.uploading
  committed := if w.status = .FINISHED then some (blockIds w.blocks) else none

structure WF (w : Writer) : Prop where
  nodup : (blockIds w.blocks).Nodup
  uploading : ∀ b ∈ w.uploading, b ∈ w.blocks
  finishedBlocks : ∀ b ∈ w.finishedBlocks, b ∈ w.blocks
  count : w.blocks.length = w.uploading.length + w.finishedBlocks.length + w.received
  reading : w.status = .READING → ∀ b ∈ w.blocks, b ∈ w.uploading ∨ b ∈ w.finishedBlocks
  finished : w.status = .FINISHED → w.uploading = []
  notFailed : w.status ≠ .FAILED

variable {w w' : Writer}

theorem wf_new (bucketInfo : BucketInfo) (key : Bytes) : WF { bucketInfo, key } :=
  ⟨List.nodup_nil, nofun, nofun, rfl, nofun, nofun, nofun⟩

theorem WF.status_cases (hw : w.WF) :
    w.active = true ∨ w.status = .ABORTED ∨ w.status = .FINISHED := by
  have := hw.notFailed
  cases h : w.status <;> simp_all [active]

theorem maker_active (h : w.active = true) : w.maker =
    ⟨blockIds w.blocks, blockIds w.blocks, blockIds w.blocks, blockIds w.uploading, none⟩ := by
  have hfinished : w.status ≠ .FINISHED := by
    intro hs
    simp [active, hs] at h
  rw [maker, if_pos h, if_pos h, if_neg hfinished]

theorem maker_aborted (h : w.status = .ABORTED) : w.maker =
    ⟨blockIds w.blocks, [], blockIds (w.uploading ++ w.finishedBlocks), blockIds w.uploading,
      none⟩ := by
  simp [maker, active, h]

theorem maker_finished (h : w.status = .FINISHED) : w.maker =
    ⟨blockIds w.blocks, [], [], blockIds w.uploading, some (blockIds w.blocks)⟩ := by
  simp [maker, active, h]

theorem blockIds_subset {bs bs' : List BlockInfo} (h : ∀ b ∈ bs, b ∈ bs') :
    ∀ x ∈ blockIds bs, x ∈ blockIds bs' := by
  intro x hx
  obtain ⟨b, hb, rfl⟩ := List.mem_map.mp hx
  exact List.mem_map_of_mem (h b hb)

theorem WF.unreceived (hw : w.WF) : ∀ b ∈ w.uploading ++ w.finishedBlocks, b ∈ w.blocks := by
  intro b hb
  rcases List.mem_append.mp hb with hb | hb
  · exact hw.uploading b hb
  · exact hw.finishedBlocks b hb

/-- Once all blocks are received, nothing is uploading or waiting. -/
theorem WF.all_received (hw : w.WF) (h : w.received = w.blockCount) :
    w.uploading = [] ∧ w.finishedBlocks = [] := by
  have hcount := hw.count
  rw [blockCount] at h
  constructor <;> apply List.eq_nil_of_length_eq_zero <;> split_ifs at h <;> omega

theorem WF.maker (hw : w.WF) : w.maker.WF := by
  rcases hw.status_cases with hs | hs | hs
  · rw [maker_active hs]
    exact ⟨hw.nodup, fun x hx => hx, fun x hx => hx, blockIds_subset hw.uploading, nofun, nofun,
      nofun⟩
  · rw [maker_aborted hs]
    exact ⟨List.nodup_nil, nofun, blockIds_subset hw.unreceived, blockIds_subset hw.uploading,
      nofun, nofun, nofun⟩
  · rw [maker_finished hs]
    refine ⟨List.nodup_nil, nofun, nofun, blockIds_subset hw.uploading, ?_, ?_, fun _ _ => rfl⟩
    · rintro L ⟨⟩
      exact hw.nodup
    · rintro L ⟨⟩ x hx
      exact hx

/-- What is uploading is held, until the writer is finished. -/
theorem WF.pending_held (hw : w.WF) (h : w.status ≠ .FINISHED) :
    ∀ x ∈ w.maker.pending, x ∈ w.maker.held := by
  rcases hw.status_cases with hs | hs | hs
  · rw [maker_active hs]
    exact blockIds_subset hw.uploading
  · rw [maker_aborted hs]
    exact blockIds_subset fun b hb => List.mem_append_left _ hb
  · exact absurd hs h

variable {l : Ledger Bytes} {info : BlockInfo}

theorem WF.getCurBlock (hw : w.WF) (h : w.getCurBlock = some w') :
    w'.WF ∧ w'.maker = w.maker := by
  unfold Writer.getCurBlock at h
  split_ifs at h
  cases h
  exact ⟨⟨hw.nodup, hw.uploading, hw.finishedBlocks, hw.count, hw.reading, hw.finished,
    hw.notFailed⟩, rfl⟩

theorem WF.close (hw : w.WF) (h : w.close = some w') : w'.WF ∧ w'.maker = w.maker := by
  unfold Writer.close at h
  split_ifs at h with hs
  cases h
  have hactive : w.active = true := by simp [active, hs.1]
  refine ⟨⟨hw.nodup, hw.uploading, hw.finishedBlocks, hw.count, nofun, nofun, nofun⟩, ?_⟩
  rw [maker_active hactive, maker_active (by simp [active])]

theorem WF.commitCurBlock (hw : w.WF) (h : w.commitCurBlock info = some w')
    (hmade : ∀ x ∈ w.maker.made, x ∈ l.generated) (hnew : info.blockId ∉ l.generated) :
    w'.WF ∧ l.Moves w.maker w'.maker [info.blockId] [] := by
  unfold Writer.commitCurBlock at h
  split_ifs at h with hs
  cases h
  have hactive : w.active = true := by simp [active, hs.1]
  rw [maker_active hactive] at hmade
  have hwf : WF { w with
      curBlock := false, blocks := w.blocks ++ [info], uploading := w.uploading ++ [info] } := by
    refine ⟨?_, List.append_subset.mpr ⟨?_, ?_⟩, ?_, ?_, ?_, ?_, hw.notFailed⟩
    · rw [blockIds, List.map_append, List.nodup_append]
      refine ⟨hw.nodup, List.nodup_singleton _, ?_⟩
      rintro x hx y hy rfl
      rw [List.map_singleton, List.mem_singleton] at hy
      exact hnew (hy ▸ hmade x hx)
    · exact fun b hb => List.mem_append_left _ (hw.uploading b hb)
    · exact fun b hb => List.mem_append_right _ hb
    · exact fun b hb => List.mem_append_left _ (hw.finishedBlocks b hb)
    · have hcount := hw.count
      simp only [List.length_append, List.length_singleton]
      omega
    · intro hr b hb
      rcases List.mem_append.mp hb with hb | hb
      · exact (hw.reading hr b hb).imp_left (List.mem_append_left _)
      · exact .inl (List.mem_append_right _ hb)
    · intro hf
      rw [hs.1] at hf
      cases hf
  refine ⟨hwf, ?_⟩
  have hactive' : active { w with
      curBlock := false, blocks := w.blocks ++ [info], uploading := w.uploading ++ [info] } = true :=
    hactive
  have hheld := hwf.pending_held (by rw [hs.1]; decide)
  have hmaker := hwf.maker
  rw [maker_active hactive'] at hmaker hheld ⊢
  rw [maker_active hactive]
  have happend : ∀ bs : List BlockInfo, ∀ x, x ∈ blockIds (bs ++ [info]) ↔
      x ∈ blockIds bs ∨ x ∈ [info.blockId] := by
    intro bs x
    simp [blockIds]
  refine ⟨hmaker, rfl, rfl, by simpa using hnew, happend _, ?_, ?_, ?_, ?_,
    fun _ hx => absurd hx List.not_mem_nil, fun _ hx => absurd hx List.not_mem_nil⟩
  · intro x hx
    refine ((happend _ x).mp hx).imp_right fun hx => ⟨hx, ?_⟩
    exact (happend _ x).mpr (.inr hx)
  · exact fun x hx => .inl ((happend _ x).mpr (.inl hx))
  · exact fun x hx => .inl (hheld x hx)
  · exact fun x hx => .inl ((happend _ x).mpr (.inl hx))

theorem WF.uploadBlock (hw : w.WF) (h : w.uploadBlock info = some w')
    (hc : info.blockId ∈ l.created) : w'.WF ∧ l.Moves w.maker w'.maker [] [] := by
  unfold Writer.uploadBlock at h
  split_ifs at h with hup
  cases h
  have hlen := List.length_erase_of_mem hup
  have hpos := List.length_pos_of_mem hup
  have hopen : w.status ≠ .FINISHED := by
    intro hf
    rw [hw.finished hf] at hup
    cases hup
  have herase : ∀ b ∈ w.uploading, b ∈ w.uploading.erase info ∨ b = info := by
    intro b hb
    by_cases hbi : b = info
    · exact .inr hbi
    · exact .inl ((List.mem_erase_of_ne hbi).mpr hb)
  have hwf : WF { w with
      uploading := w.uploading.erase info, finishedBlocks := w.finishedBlocks ++ [info] } := by
    refine ⟨hw.nodup, fun b hb => hw.uploading b (List.mem_of_mem_erase hb),
      List.append_subset.mpr ⟨hw.finishedBlocks, ?_⟩, ?_, ?_, fun hf => absurd hf hopen,
      hw.notFailed⟩
    · intro b hb
      rw [List.mem_singleton.mp hb]
      exact hw.uploading info hup
    · have hcount := hw.count
      simp only [List.length_append, List.length_singleton, hlen]
      omega
    · intro hr b hb
      rcases hw.reading hr b hb with hb | hb
      · rcases herase b hb with hb | rfl
        · exact .inl hb
        · exact .inr (List.mem_append_right _ (List.mem_singleton_self b))
      · exact .inr (List.mem_append_left _ hb)
  refine ⟨hwf, ?_⟩
  have hmaker := hwf.maker
  have hheld := hwf.pending_held hopen
  have harriving : ∀ x ∈ blockIds w.uploading,
      x ∈ blockIds (w.uploading.erase info) ∨ x ∈ l.created := by
    intro x hx
    obtain ⟨b, hb, rfl⟩ := List.mem_map.mp hx
    rcases herase b hb with hb | rfl
    · exact .inl (List.mem_map_of_mem hb)
    · exact .inr hc
  rcases hw.status_cases with hs | hs | hs
  · rw [maker_active (w := { w with
      uploading := w.uploading.erase info, finishedBlocks := w.finishedBlocks ++ [info] }) hs]
      at hmaker hheld ⊢
    rw [maker_active hs]
    exact ⟨hmaker, rfl, rfl, nofun, by simp, fun x hx => .inl hx, harriving,
      fun x hx => .inl (hheld x hx), fun x hx => .inl hx, nofun, nofun⟩
  · rw [maker_aborted (w := { w with
      uploading := w.uploading.erase info, finishedBlocks := w.finishedBlocks ++ [info] }) hs]
      at hmaker hheld ⊢
    rw [maker_aborted hs]
    refine ⟨hmaker, rfl, rfl, nofun, by simp, nofun, harriving, fun x hx => .inl (hheld x hx),
      fun x hx => .inl ?_, nofun, nofun⟩
    refine blockIds_subset (fun b hb => ?_) x hx
    rcases List.mem_append.mp hb with hb | hb
    · rcases herase b hb with hb | rfl
      · exact List.mem_append_left _ hb
      · exact List.mem_append_right _ (List.mem_append_right _ (List.mem_singleton_self b))
    · exact List.mem_append_right _ (List.mem_append_left _ hb)
  · exact absurd hs hopen

theorem WF.abort (hw : w.WF) (h : w.abort = some w') :
    w'.WF ∧ l.Moves w.maker w'.maker [] [] := by
  unfold Writer.abort at h
  split_ifs at h with hs
  cases h
  have hactive : w.active = true := by simp [active, hs]
  have hwf : WF { w with status := .ABORTED } :=
    ⟨hw.nodup, hw.uploading, hw.finishedBlocks, hw.count, nofun, nofun, nofun⟩
  refine ⟨hwf, ?_⟩
  have hmaker := hwf.maker
  have hheld := hwf.pending_held nofun
  rw [maker_aborted (w := { w with status := .ABORTED }) rfl] at hmaker hheld ⊢
  rw [maker_active hactive]
  refine ⟨hmaker, rfl, rfl, nofun, by simp, nofun, fun x hx => .inl hx,
    fun x hx => .inl (hheld x hx), fun x hx => .inl ?_, nofun, nofun⟩
  -- nothing has been received, so every block is on its way or waiting
  exact blockIds_subset (fun b hb => List.mem_append.mpr (hw.reading hs b hb)) x hx

theorem WF.receive (hw : w.WF) (h : w.receive info = some w') : w'.WF := by
  unfold Writer.receive at h
  split_ifs at h with hs
  cases h
  obtain ⟨hstatus, -, hin⟩ := hs
  have hlen := List.length_erase_of_mem hin
  have hpos := List.length_pos_of_mem hin
  refine ⟨hw.nodup, hw.uploading, fun b hb => hw.finishedBlocks b (List.mem_of_mem_erase hb), ?_,
    ?_, hw.finished, hw.notFailed⟩
  · have hcount := hw.count
    simp only [hlen]
    omega
  · intro hr
    rcases hstatus with hstatus | hstatus <;> rw [hr] at hstatus <;> cases hstatus

/-- `Close` only counts what it receives. -/
theorem maker_receive (h : w.receive info = some w') (hs : w.status = .UPLOADING) :
    w'.maker = w.maker := by
  unfold Writer.receive at h
  split_ifs at h
  cases h
  have hactive : w.active = true := by simp [active, hs]
  rw [maker_active hactive, maker_active (w := { w with
    finishedBlocks := w.finishedBlocks.erase info, received := w.received + 1 }) hactive]

/-- `Abort` gives up what it receives. -/
theorem WF.receive_aborted (hw : w.WF) (h : w.receive info = some w') (hs : w.status = .ABORTED) :
    l.Moves w.maker w'.maker [] [info.blockId] := by
  have hwf := hw.receive h
  unfold Writer.receive at h
  split_ifs at h with hcond
  cases h
  have hmaker := hwf.maker
  have hheld := hwf.pending_held (by rw [hs]; nofun)
  rw [maker_aborted (w := { w with
    finishedBlocks := w.finishedBlocks.erase info, received := w.received + 1 }) hs]
    at hmaker hheld ⊢
  rw [maker_aborted hs]
  refine ⟨hmaker, rfl, rfl, nofun, by simp, nofun, fun x hx => .inl hx,
    fun x hx => .inl (hheld x hx), fun x hx => ?_, fun x hx => ?_, fun _ _ => List.not_mem_nil⟩
  · obtain ⟨b, hb, rfl⟩ := List.mem_map.mp hx
    by_cases hbi : b = info
    · exact .inr (hbi ▸ List.mem_singleton_self _)
    · refine .inl (List.mem_map_of_mem ?_)
      rcases List.mem_append.mp hb with hb | hb
      · exact List.mem_append_left _ hb
      · exact List.mem_append_right _ ((List.mem_erase_of_ne hbi).mpr hb)
  · rw [List.mem_singleton.mp hx]
    exact List.mem_map_of_mem (hw.finishedBlocks info hcond.2.2)

theorem WF.finish (hw : w.WF) (h : w.finish = some w')
    (hstored : ∀ x ∈ w.maker.live, x ∈ l.store ∨ x ∈ w.maker.pending) :
    w'.WF ∧ l.HandsOver w.maker w'.maker ∧ w.maker.live = blockIds w.blocks := by
  unfold Writer.finish at h
  split_ifs at h with hs
  cases h
  have hactive : w.active = true := by simp [active, hs.1]
  have hnone := (hw.all_received hs.2).1
  refine ⟨⟨hw.nodup, hw.uploading, hw.finishedBlocks, hw.count, nofun, fun _ => hnone, nofun⟩,
    ?_, by rw [maker_active hactive]⟩
  rw [maker_finished (w := { w with status := .FINISHED }) rfl]
  rw [maker_active hactive] at hstored ⊢
  rw [hnone] at hstored ⊢
  exact ⟨rfl, fun x hx => (hstored x hx).resolve_right List.not_mem_nil, fun x hx => hx,
    fun x => Iff.rfl, nofun, rfl, rfl, rfl⟩

theorem WF.held_of_done (hw : w.WF) (h : w.Done) : w.maker.held = [] := by
  rcases h with hs | ⟨hs, hall⟩
  · rw [maker_finished hs]
  · rw [maker_aborted hs, (hw.all_received hall).1, (hw.all_received hall).2]
    rfl

end Writer

end Ecos.Client.WriterBlocks
