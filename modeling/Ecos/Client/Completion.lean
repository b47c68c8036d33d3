import Ecos.Client.WritePart

namespace Ecos.Client.Multipart
open Go Logic

/-- The factory refuses the list: it is passed to it, and from 0 on its numbers do not ascend. -/
def Entry.Unordered (entry : Entry) (parts : List Int32) : Prop :=
  entry ≠ .closeMultiPart ∧ ¬ (0 :: entry.passed parts).IsChain (· ≤ ·)

instance (entry : Entry) (parts : List Int32) : Decidable (entry.Unordered parts) :=
  inferInstanceAs (Decidable (_ ∧ _))

namespace Job

variable {f : Factory} {j j' : Job}

/-- The steps of a job that is not `READING`. -/
inductive Late (f : Factory) (j : Job) : Job → Prop where
  | same : Late f j j
  | uploadBlock {h : ℕ} {uploaded : Bool} {j' : Job} (hstep : j.uploadBlock h uploaded = some j') :
    Late f j j'
  | receive {h : ℕ} {j' : Job} (hstep : j.receive h = some j') : Late f j j'
  | commit {c : Closing} {replies : List SubmitReply} {r : Completed} (hc : j.closing = some c)
    (hr : j.commit f c replies = some r) : Late f j r.job

theorem writePart_late (hs : j.status ≠ .READING) (p : Int32) (reader : Reader)
    (victim : Option Errno) :
    j.writePart f p reader victim = (j, .error .repeatedClose) := by
  unfold writePart
  rw [if_pos hs]

theorem complete_late (hs : j.status ≠ .READING) (entry : Entry) (parts : List Int32) :
    ∃ e, j.complete entry parts = (j, some e) := by
  have hclose : ∀ entry, j.closeMultiPart entry parts = (j, some .repeatedClose) := by
    intro entry
    rw [closeMultiPart, if_pos hs]
  unfold complete
  split
  · exact ⟨_, hclose _⟩
  · split_ifs <;> first | exact ⟨_, hclose _⟩ | exact ⟨_, rfl⟩

theorem abort_late (hs : j.status ≠ .READING) : ∃ e, j.abort = (j, some e) := by
  unfold abort
  split_ifs
  · exact ⟨_, rfl⟩
  · exact ⟨_, rfl⟩

theorem late_of_step (hs : j.status ≠ .READING) {a : Action} (h : j.step f a = some j') :
    Late f j j' := by
  cases a with
  | writePart p reader victim =>
    rw [step, writePart_late hs] at h
    cases h
    exact .same
  | uploadBlock g uploaded => exact .uploadBlock h
  | complete entry parts =>
    obtain ⟨e, he⟩ := complete_late hs entry parts
    rw [step, he] at h
    cases h
    exact .same
  | receive g => exact .receive h
  | commit replies =>
    simp only [step, bind, Option.bind_eq_some_iff] at h
    obtain ⟨c, hc, r, hr, h⟩ := h
    cases h
    exact .commit hc hr
  | abort =>
    obtain ⟨e, he⟩ := abort_late hs
    rw [step, he] at h
    cases h
    exact .same

theorem commit_status {c : Closing} {replies : List SubmitReply} {r : Completed}
    (h : j.commit f c replies = some r) :
    r.job.status = j.status ∧ r.job.registered = j.registered ∨ r.job.status = .FINISHED := by
  simp only [commit, bind, Option.bind_eq_some_iff] at h
  obtain ⟨objectMeta, -, err, -, h⟩ := h
  by_cases hp : 0 < c.pending
  · rw [if_pos hp] at h
    cases h
  · rw [if_neg hp] at h
    split at h
    · cases h
      exact .inl ⟨rfl, rfl⟩
    · split_ifs at h <;> cases h <;> exact .inr rfl

theorem Late.not_reading (h : Late f j j') (hs : j.status ≠ .READING) : j'.status ≠ .READING := by
  cases h with
  | same => exact hs
  | uploadBlock hstep =>
    obtain ⟨block, -, -, rfl⟩ := uploadBlock_cases hstep
    exact hs
  | receive hstep =>
    obtain ⟨c, block, -, -, -, -, ⟨-, -, rfl⟩ | ⟨-, rfl⟩⟩ := receive_cases hstep <;> exact hs
  | commit hc hr =>
    rcases commit_status hr with ⟨hst, -⟩ | hst
    · rw [hst]
      exact hs
    · rw [hst]
      nofun

/-- What late steps keep holds after every run. -/
theorem late_run {I : Job → Prop}
    (hstep : ∀ j a j', I j → j.status ≠ .READING → j.step f a = some j' → Late f j j' → I j')
    (hj : I j) (hs : j.status ≠ .READING) {acts : List Action}
    (hr : run (step f) j acts = some j') : I j' ∧ j'.status ≠ .READING :=
  run_preserved (I := fun j : Job => I j ∧ j.status ≠ .READING)
    (fun _ _ _ hj h => ⟨hstep _ _ _ hj.1 hj.2 h (late_of_step hj.2 h),
      (late_of_step hj.2 h).not_reading hj.2⟩)
    ⟨hj, hs⟩ hr

theorem pendingMap_error {parts : List Int32} {e : Errno} (h : j.pendingMap parts = .error e) :
    e = .invalidArgument ∨ e = .invalidPart := by
  induction parts with
  | nil => cases h
  | cons p parts ih =>
    rw [pendingMap] at h
    split_ifs at h
    · cases h
      exact .inl rfl
    · cases h
      exact .inr rfl
    · cases hrest : j.pendingMap parts with
      | error e' =>
        rw [hrest] at h
        cases h
        exact ih hrest
      | ok s =>
        rw [hrest] at h
        cases h

/-- How a completion is rejected: before the status is set, or after it. -/
theorem complete_error (hread : j.status = .READING) {entry : Entry} {parts : List Int32}
    {e : Errno} (h : j.complete entry parts = (j', some e)) :
    (j' = j ∧ (e = .invalidPartOrder ∧ entry.Unordered parts ∨ e = .noSuchUpload)) ∨
      (j' = { j with status := .UPLOADING } ∧ (e = .invalidArgument ∨ e = .invalidPart) ∧
        ¬ entry.Unordered parts) := by
  have hclose : ∀ {entry}, j.closeMultiPart entry parts = (j', some e) →
      j' = { j with status := .UPLOADING } ∧ (e = .invalidArgument ∨ e = .invalidPart) := by
    intro entry h
    rw [closeMultiPart, if_neg (not_not.mpr hread)] at h
    dsimp only at h
    split at h
    · rename_i hmap
      cases h
      exact ⟨rfl, pendingMap_error hmap⟩
    · cases h
  unfold complete at h
  split at h
  · obtain ⟨hjob, he⟩ := hclose h
    exact .inr ⟨hjob, he, fun hunordered => hunordered.1 rfl⟩
  · rename_i hentry
    split_ifs at h with horder hreg
    · obtain ⟨hjob, he⟩ := hclose h
      exact .inr ⟨hjob, he, fun hunordered => hunordered.2 horder⟩
    · cases h
      exact .inl ⟨rfl, .inr rfl⟩
    · cases h
      exact .inl ⟨rfl, .inl ⟨rfl, hentry, horder⟩⟩

/-- Every block is being read, or uploaded, or has been uploaded; its upload sends it once. Before
the job is completed nobody receives. -/
structure Tracked (j : Job) : Prop where
  sound : j.Sound
  sorted : j.partIDs.Pairwise (· < ·)
  registered : j.status = .READING → j.registered = true
  nodup : (j.uploading ++ j.finishedBlocks).Nodup
  uploading : ∀ h ∈ j.uploading, ∃ b, j.heap[h]? = some b ∧ b.status = .UPLOADING
  block : ∀ h b, j.heap[h]? = some b → b.status = .READING ∨
    (b.status = .UPLOADING ∧ h ∈ j.uploading) ∨
    (Ended b ∧ (j.status = .READING → h ∈ j.finishedBlocks))

theorem getElem?_concat_cases {α : Type} {l : List α} {a b : α} {i : ℕ}
    (h : (l ++ [a])[i]? = some b) : l[i]? = some b ∨ (i = l.length ∧ b = a) := by
  rcases Nat.lt_trichotomy i l.length with hlt | rfl | hgt
  · rw [List.getElem?_append_left hlt] at h
    exact .inl h
  · rw [List.getElem?_concat_length] at h
    exact .inr ⟨rfl, (Option.some.inj h).symm⟩
  · rw [List.getElem?_eq_none (by rw [List.length_append, List.length_singleton]; omega)] at h
    cases h

theorem Tracked.lt_length (hj : j.Tracked) {h : ℕ} (hh : h ∈ j.uploading ++ j.finishedBlocks) :
    h < j.heap.length := by
  rcases List.mem_append.mp hh with hh | hh
  · obtain ⟨b, hb, -⟩ := hj.uploading h hh
    exact (List.getElem?_eq_some_iff.mp hb).1
  · obtain ⟨b, hb, -⟩ := hj.sound.ended h hh
    exact (List.getElem?_eq_some_iff.mp hb).1

theorem Tracked.writePart (hj : j.Tracked) (p : Int32) (reader : Reader) (victim : Option Errno) :
    (j.writePart f p reader victim).1.Tracked := by
  have hsound := hj.sound.writePart (f := f) p reader victim
  have hout := outcome_writePart (f := f) hj.sorted p reader victim
  have hold : ∀ {block h}, h ∈ j.uploading → ∃ b, (j.heap ++ [block])[h]? = some b ∧
      b.status = .UPLOADING := by
    intro block h hh
    obtain ⟨b, hb, hst⟩ := hj.uploading h hh
    exact ⟨b, by rw [List.getElem?_append_left (List.getElem?_eq_some_iff.mp hb).1, hb], hst⟩
  generalize j.writePart f p reader victim = r at hout hsound ⊢
  cases hout with
  | refused e h => exact hj
  | failed e block h hb =>
    refine ⟨hsound, sorted_partIDsWith hj.sorted p, hj.registered, hj.nodup, fun h hh => hold hh,
      fun h b hheap => ?_⟩
    rcases getElem?_concat_cases hheap with hheap | ⟨-, rfl⟩
    · exact hj.block h b hheap
    · exact .inl hb.status
  | written block h hb =>
    refine ⟨hsound, sorted_partIDsWith hj.sorted p, hj.registered, ?_, fun h hh => ?_,
      fun h b hheap => ?_⟩
    · -- the new address is above all others
      have hnew : j.heap.length ∉ j.uploading ++ j.finishedBlocks :=
        fun hin => absurd (hj.lt_length hin) (Nat.lt_irrefl _)
      change ((j.uploading ++ [j.heap.length]) ++ j.finishedBlocks).Nodup
      rw [List.append_assoc, List.singleton_append]
      exact (List.nodup_middle).mpr (List.nodup_cons.mpr ⟨hnew, hj.nodup⟩)
    · rcases List.mem_append.mp hh with hh | hh
      · exact hold hh
      · rw [List.mem_singleton.mp hh]
        exact ⟨block, List.getElem?_concat_length, hb.status⟩
    · rcases getElem?_concat_cases hheap with hheap | ⟨rfl, rfl⟩
      · refine (hj.block h b hheap).imp_right (Or.imp_left fun hup => ⟨hup.1, ?_⟩)
        exact List.mem_append_left _ hup.2
      · exact .inr (.inl ⟨hb.status, List.mem_append_right _ (List.mem_singleton_self _)⟩)

theorem Tracked.uploadBlock (hj : j.Tracked) {h : ℕ} {uploaded : Bool}
    (hstep : j.uploadBlock h uploaded = some j') : j'.Tracked := by
  have hsound := hj.sound.uploadBlock hstep
  obtain ⟨block, hblock, hin, rfl⟩ := uploadBlock_cases hstep
  obtain ⟨hup, hfin, hdisj⟩ := List.nodup_append.mp hj.nodup
  have hend : Ended { block with status := uploadStatus uploaded, chunks := [] } :=
    ended_uploadStatus rfl
  refine ⟨hsound, hj.sorted, hj.registered, ?_, fun g hg => ?_, fun g b hb => ?_⟩
  · refine List.Perm.nodup ?_ hj.nodup
    calc j.uploading ++ j.finishedBlocks
        _ |>.Perm ((h :: j.uploading.erase h) ++ j.finishedBlocks) :=
          (List.perm_cons_erase hin).append_right _
        _ |>.Perm (j.uploading.erase h ++ (j.finishedBlocks ++ [h])) := by
          rw [← List.append_assoc]
          exact (List.perm_append_singleton h _).symm
  · obtain ⟨hgh, hg⟩ := (hup.mem_erase_iff).mp hg
    obtain ⟨b, hb, hst⟩ := hj.uploading g hg
    exact ⟨b, by rw [List.getElem?_set_ne (Ne.symm hgh), hb], hst⟩
  · by_cases hgh : h = g
    · subst hgh
      rw [List.getElem?_set_self (List.getElem?_eq_some_iff.mp hblock).1] at hb
      cases hb
      exact .inr (.inr ⟨hend, fun _ => List.mem_append_right _ (List.mem_singleton_self _)⟩)
    · rw [List.getElem?_set_ne hgh] at hb
      rcases hj.block g b hb with hst | ⟨hst, hg⟩ | ⟨hst, hg⟩
      · exact .inl hst
      · exact .inr (.inl ⟨hst, (List.mem_erase_of_ne (Ne.symm hgh)).mpr hg⟩)
      · exact .inr (.inr ⟨hst, fun hread => List.mem_append_left _ (hg hread)⟩)

theorem Tracked.complete (hj : j.Tracked) (entry : Entry) (parts : List Int32) :
    (j.complete entry parts).1.Tracked := by
  have hsound := hj.sound.complete entry parts
  obtain ⟨status, closing, hstatus, heq⟩ := complete_frame (j := j) entry parts
  rw [heq] at hsound ⊢
  have hread : status = .READING → j.status = .READING := by
    rcases hstatus with rfl | rfl
    · exact id
    · nofun
  exact ⟨hsound, hj.sorted, fun hs => hj.registered (hread hs), hj.nodup, hj.uploading,
    fun g b hb => (hj.block g b hb).imp_right
      (Or.imp_right (And.imp_right fun h hs => h (hread hs)))⟩

theorem Tracked.receive (hj : j.Tracked) {h : ℕ} (hstep : j.receive h = some j') : j'.Tracked := by
  have hsound := hj.sound.receive hstep
  obtain ⟨c, block, hc, -, -, -, hcase⟩ := receive_cases hstep
  have hread := hj.sound.reading c hc
  have hsub : (j.uploading ++ j.finishedBlocks.erase h).Nodup :=
    hj.nodup.sublist (List.Sublist.append_left List.erase_sublist _)
  rcases hcase with ⟨-, -, rfl⟩ | ⟨-, rfl⟩ <;>
    exact ⟨hsound, hj.sorted, fun hs => absurd hs hread, hsub, hj.uploading, fun g b hb =>
      (hj.block g b hb).imp_right (Or.imp_right (And.imp_right fun _ hs => absurd hs hread))⟩

theorem tracked_step (hj : j.Tracked) {a : Action} (h : j.step f a = some j') : j'.Tracked := by
  have hsound := sound_step hj.sound h
  cases a with
  | writePart p reader victim =>
    cases h
    exact hj.writePart p reader victim
  | uploadBlock g uploaded => exact hj.uploadBlock h
  | complete entry parts =>
    cases h
    exact hj.complete entry parts
  | receive g => exact hj.receive h
  | commit replies =>
    simp only [step, bind, Option.bind_eq_some_iff] at h
    obtain ⟨c, hc, r, hr, h⟩ := h
    cases h
    have hread := (Late.commit hc hr).not_reading (hj.sound.reading c hc)
    obtain ⟨-, -, hjob⟩ := commit_job hr
    rw [hjob] at hsound ⊢
    exact ⟨hsound, hj.sorted, fun hs => absurd hs hread, hj.nodup, hj.uploading, fun g b hb =>
      (hj.block g b hb).imp_right (Or.imp_right (And.imp_right fun _ hs => absurd hs hread))⟩
  | abort =>
    cases h
    revert hsound
    unfold abort
    split_ifs with hreg hread
    · exact fun _ => hj
    · intro hsound
      have hnot : BlockStatus.ABORTED ≠ .READING := by decide
      exact ⟨hsound, hj.sorted, fun hs => absurd hs hnot, hj.nodup, hj.uploading, fun g b hb =>
        (hj.block g b hb).imp_right (Or.imp_right (And.imp_right fun _ hs => absurd hs hnot))⟩
    · exact fun _ => hj

theorem tracked_new (key : Bytes) (term : UInt64) : (createMultipartUploadJob key term).Tracked :=
  ⟨(wf_new key term).sound, List.Pairwise.nil, fun _ => rfl, List.nodup_nil, nofun, nofun⟩

theorem tracked_run {key : Bytes} {term : UInt64} {acts : List Action}
    (h : run (step f) (createMultipartUploadJob key term) acts = some j) : j.Tracked :=
  run_preserved (fun _ _ _ hj h => tracked_step hj h) (tracked_new key term) h

end Job

/-- Whatever happens, the job takes no part, no list of parts and no abort any more. -/
def Shut (f : Factory) (j : Job) : Prop :=
  ∀ acts j', run (Job.step f) j acts = some j' →
    (∀ p reader victim, (j'.writePart f p reader victim).2.isOk = false) ∧
      (∀ entry parts, (j'.complete entry parts).2 ≠ none) ∧ j'.abort.2 ≠ none

theorem shut_of_not_reading {f : Factory} {j : Job} (hs : j.status ≠ .READING) : Shut f j := by
  intro acts j' hr
  obtain ⟨-, hs'⟩ := Job.late_run (I := fun _ => True) (fun _ _ _ _ _ _ _ => trivial) trivial hs hr
  refine ⟨fun p reader victim => ?_, fun entry parts => ?_, ?_⟩
  · rw [Job.writePart_late hs']
    rfl
  · obtain ⟨e, he⟩ := Job.complete_late hs' entry parts
    rw [he]
    nofun
  · obtain ⟨e, he⟩ := Job.abort_late hs'
    rw [he]
    nofun

/-- A list that is rejected leaves the job as it was exactly if the factory refuses its order. A
number out of range or without a block shuts the job. -/
theorem rejected_unchanged_iff (f : Factory) (key : Bytes) (term : UInt64) (acts : List Action)
    {j j' : Job} (hr : run (Job.step f) (createMultipartUploadJob key term) acts = some j)
    (hread : j.status = .READING) (entry : Entry) (parts : List Int32) {e : Errno}
    (h : j.complete entry parts = (j', some e))
    (he : e = .invalidArgument ∨ e = .invalidPart ∨ e = .invalidPartOrder) :
    (j'.status = j.status ∧ SameParts j j' ↔ entry.Unordered parts) ∧
      (Shut f j' ↔ ¬ entry.Unordered parts) := by
  rcases Job.complete_error hread h with ⟨rfl, hcase⟩ | ⟨rfl, -, hordered⟩
  · have hunordered : entry.Unordered parts := by
      rcases hcase with ⟨-, hunordered⟩ | rfl
      · exact hunordered
      · simp at he
    refine ⟨iff_of_true ⟨rfl, rfl, rfl, fun _ => rfl⟩ hunordered, iff_of_false ?_ ?_⟩
    · -- the job can still be aborted
      intro hshut
      refine (hshut [] _ rfl).2.2 ?_
      rw [Job.abort, if_neg (not_not.mpr ((Job.tracked_run hr).registered hread)),
        if_neg (not_not.mpr hread)]
    · exact not_not.mpr hunordered
  · refine ⟨iff_of_false ?_ hordered, iff_of_true (shut_of_not_reading nofun) hordered⟩
    intro hsame
    rw [hread] at hsame
    cases hsame.1

theorem rejected_unchanged_order :
    Entry.completeMultipartUploadJob.Unordered [2, 1] ∧
      ∃ j', (after writeTwo).complete .completeMultipartUploadJob [2, 1] =
          (j', some .invalidPartOrder) ∧
        j'.status = .READING ∧ SameParts (after writeTwo) j' ∧ ¬ Shut hashing j' := by
  have hunordered : Entry.completeMultipartUploadJob.Unordered [2, 1] := by decide
  obtain ⟨hsame, hshut⟩ := rejected_unchanged_iff hashing [107] 1 writeTwo rfl rfl
    .completeMultipartUploadJob [2, 1] rfl (.inr (.inr rfl))
  exact ⟨hunordered, _, rfl, rfl, (hsame.mpr hunordered).2, fun h => hshut.mp h hunordered⟩

/-- The list names part 3, which was not written, or part 0. After that the list of the two parts
that were written is refused, and so are a further part and an abort. -/
theorem rejected_completion_shuts :
    ((after writeTwo).complete .completeMultipartUploadJob [1, 3]).2 = some .invalidPart ∧
      ((after writeTwo).complete .closeMultiPart [0]).2 = some .invalidArgument ∧
      ∀ j' ∈ [((after writeTwo).complete .completeMultipartUploadJob [1, 3]).1,
          ((after writeTwo).complete .closeMultiPart [0]).1],
        j'.status = .UPLOADING ∧
          (j'.complete .completeMultipartUploadJob [1, 2]).2 = some .repeatedClose ∧
          (j'.writePart hashing 3 ⟨[[7]], [], none⟩ none).2 = .error .repeatedClose ∧
          j'.abort.2 = some .repeatedClose := by
  refine ⟨by decide, by decide, ?_⟩
  rw [List.forall_mem_cons, List.forall_mem_singleton]
  decide

instance decidableEnded (b : Block) : Decidable (Ended b) :=
  inferInstanceAs (Decidable (b.status = .FINISHED ∨ b.status = .FAILED))

theorem Ended.status_ne {b : Block} (h : Ended b) :
    b.status ≠ .READING ∧ b.status ≠ .UPLOADING := by
  rcases h with h | h <;> rw [h] <;> exact ⟨nofun, nofun⟩

namespace Job

variable {f : Factory} {j j' : Job} {parts : List Int32} {p : Int32} {h : ℕ}

def Received (j : Job) (p : Int32) : Prop :=
  ∃ h ∈ j.blocks.lookup p, h ∉ j.finishedBlocks ∧ ∃ b ∈ j.heap[h]?, Ended b

instance decidableReceived (j : Job) (p : Int32) : Decidable (j.Received p) :=
  inferInstanceAs (Decidable
    (∃ h ∈ j.blocks.lookup p, h ∉ j.finishedBlocks ∧ ∃ b ∈ j.heap[h]?, Ended b))

/-- `pending` counts the entries of the list whose completions are still to come, and all of these
can come. -/
structure Waits (j : Job) (c : Closing) (parts : List Int32) : Prop where
  pending : c.pending = parts.countP fun p => ¬ j.Received p
  coming : ∀ p ∈ parts, ¬ j.Received p →
    ∃ h, j.blocks.lookup p = some h ∧ (h ∈ j.uploading ∨ h ∈ j.finishedBlocks)

theorem Tracked.not_received (hj : j.Tracked) (hread : j.status = .READING) (p : Int32) :
    ¬ j.Received p := by
  rintro ⟨h, -, hfin, b, hb, hend⟩
  rcases hj.block h b hb with hst | ⟨hst, -⟩ | ⟨-, hin⟩
  · exact hend.status_ne.1 hst
  · exact hend.status_ne.2 hst
  · exact hfin (hin hread)

theorem Tracked.not_reading (hj : j.Tracked) (hcome : h ∈ j.uploading ∨ h ∈ j.finishedBlocks)
    {b : Block} (hb : j.heap[h]? = some b) : b.status ≠ .READING := by
  rcases hcome with hup | hfin
  · obtain ⟨b', hb', hst⟩ := hj.uploading h hup
    rw [hb'] at hb
    cases hb
    rw [hst]
    nofun
  · obtain ⟨b', hb', hend⟩ := hj.sound.ended h hfin
    rw [hb'] at hb
    cases hb
    exact hend.status_ne.1

theorem Tracked.received_uploadBlock (hj : j.Tracked) {uploaded : Bool}
    (hstep : j.uploadBlock h uploaded = some j') : j'.Received p ↔ j.Received p := by
  obtain ⟨block, hblock, hin, rfl⟩ := uploadBlock_cases hstep
  have hfin : ∀ g, g ≠ h → (g ∈ j.finishedBlocks ++ [h] ↔ g ∈ j.finishedBlocks) := by
    intro g hg
    rw [List.mem_append, List.mem_singleton, or_iff_left hg]
  refine exists_congr fun g => and_congr_right fun _ => ?_
  dsimp only
  by_cases hg : g = h
  · -- the block has not ended before, and its completion is not received after
    refine iff_of_false (fun h' => h'.1 ?_) ?_
    · rw [hg]
      exact List.mem_append_right _ (List.mem_singleton_self h)
    · rintro ⟨-, b, hb, hend⟩
      obtain ⟨b', hb', hst⟩ := hj.uploading h hin
      rw [hg, hb'] at hb
      cases hb
      exact hend.status_ne.2 hst
  · rw [hfin g hg, List.getElem?_set_ne (Ne.symm hg)]

theorem receive_frame (hstep : j.receive h = some j') :
    j'.blocks = j.blocks ∧ j'.heap = j.heap ∧ j'.finishedBlocks = j.finishedBlocks.erase h := by
  obtain ⟨c, block, -, -, -, -, ⟨-, -, rfl⟩ | ⟨-, rfl⟩⟩ := receive_cases hstep <;>
    exact ⟨rfl, rfl, rfl⟩

theorem Tracked.received_receive (hj : j.Tracked) (hstep : j.receive h = some j') :
    j'.Received p ↔ j.Received p ∨ j.blocks.lookup p = some h := by
  obtain ⟨hblocks, hheap, hfin⟩ := receive_frame hstep
  obtain ⟨c, block, -, hblock, -, hin, -⟩ := receive_cases hstep
  have herase : ∀ g, g ∈ j.finishedBlocks.erase h ↔ g ≠ h ∧ g ∈ j.finishedBlocks := fun g =>
    (List.nodup_append.mp hj.nodup).2.1.mem_erase_iff
  unfold Received
  rw [hblocks, hheap, hfin]
  constructor
  · rintro ⟨g, hp, hg, hend⟩
    by_cases hgh : g = h
    · exact .inr (hgh ▸ hp)
    · exact .inl ⟨g, hp, fun hmem => hg ((herase g).mpr ⟨hgh, hmem⟩), hend⟩
  · rintro (⟨g, hp, hg, hend⟩ | hp)
    · exact ⟨g, hp, fun hmem => hg ((herase g).mp hmem).2, hend⟩
    · exact ⟨h, hp, fun hmem => ((herase h).mp hmem).1 rfl, hj.sound.ended h hin⟩

/-- What the second loop of `CloseMultiPart` keeps where no number is listed twice and all uploads
have started. -/
structure Looping (parts : List Int32) (j : Job) : Prop where
  tracked : j.Tracked
  started : ∀ p ∈ parts, ∃ h b, j.blocks.lookup p = some h ∧ j.heap[h]? = some b ∧
    b.status ≠ .READING
  awaited : ∀ c, j.closing = some c → ∀ p, p ∈ c.pendingMap ↔ p ∈ parts ∧ ¬ j.Received p
  pending : ∀ c, j.closing = some c → c.pending = c.pendingMap.card

theorem Looping.waits (hj : Looping parts j) (hnodup : parts.Nodup) {c : Closing}
    (hc : j.closing = some c) : j.Waits c parts := by
  refine ⟨?_, fun p hp hnot => ?_⟩
  · have hmap : c.pendingMap = (parts.filter fun p => ¬ j.Received p).toFinset := by
      ext p
      rw [hj.awaited c hc p, List.mem_toFinset, List.mem_filter, decide_eq_true_iff]
    rw [hj.pending c hc, hmap, List.toFinset_card_of_nodup (hnodup.filter _),
      List.countP_eq_length_filter]
  · obtain ⟨h, b, hh, hb, hst⟩ := hj.started p hp
    refine ⟨h, hh, ?_⟩
    rcases hj.tracked.block h b hb with hread | ⟨-, hup⟩ | ⟨hend, -⟩
    · exact absurd hread hst
    · exact .inl hup
    · by_contra hneither
      exact hnot ⟨h, hh, fun hfin => hneither (.inr hfin), b, hb, hend⟩

theorem Looping.uploadBlock (hj : Looping parts j) {uploaded : Bool}
    (hstep : j.uploadBlock h uploaded = some j') : Looping parts j' := by
  have hreceived : ∀ p, j'.Received p ↔ j.Received p :=
    fun p => hj.tracked.received_uploadBlock hstep
  have htracked := hj.tracked.uploadBlock hstep
  obtain ⟨block, hblock, -, rfl⟩ := uploadBlock_cases hstep
  refine ⟨htracked, fun p hp => ?_, fun c hc p => ?_, hj.pending⟩
  · obtain ⟨g, b, hg, hb, hst⟩ := hj.started p hp
    by_cases hgh : h = g
    · subst hgh
      have hend : Ended { block with status := uploadStatus uploaded, chunks := [] } :=
        ended_uploadStatus rfl
      exact ⟨h, _, hg, List.getElem?_set_self (List.getElem?_eq_some_iff.mp hb).1,
        hend.status_ne.1⟩
    · exact ⟨g, b, hg, by rw [List.getElem?_set_ne hgh, hb], hst⟩
  · rw [hreceived]
    exact hj.awaited c hc p

theorem Looping.receive (hj : Looping parts j) (hstep : j.receive h = some j') :
    Looping parts j' := by
  have htracked := hj.tracked.receive hstep
  have hreceived : ∀ p, j'.Received p ↔ j.Received p ∨ j.blocks.lookup p = some h :=
    fun p => hj.tracked.received_receive hstep
  obtain ⟨hblocks, hheap, -⟩ := receive_frame hstep
  obtain ⟨c, block, hc, hblock, hpos, hin, hcase⟩ := receive_cases hstep
  have hid : ∀ p, j.blocks.lookup p = some h → block.info.partId = p := by
    intro p hp
    obtain ⟨b, hb, hid⟩ := hj.tracked.sound.keyed p h hp
    rw [hblock] at hb
    cases hb
    exact hid
  refine ⟨htracked, fun p hp => by rw [hblocks, hheap]; exact hj.started p hp, ?_, ?_⟩
  · rcases hcase with ⟨hmine, hmem, rfl⟩ | ⟨hnot, rfl⟩
    · -- the part of the block is not waited for any longer
      intro c' hc' p
      cases hc'
      rw [Finset.mem_erase, hj.awaited c hc p, hreceived, not_or]
      have hkey : p ≠ block.info.partId ↔ j.blocks.lookup p ≠ some h :=
        not_congr ⟨fun heq => heq ▸ hmine, fun hp => (hid p hp).symm⟩
      rw [hkey]
      tauto
    · -- the block was replaced, or its part is not listed
      intro c' hc' p
      rw [show c' = c from Option.some.inj (hc'.symm.trans hc), hreceived, not_or,
        hj.awaited c hc p]
      have hother : p ∈ parts → ¬ j.Received p → j.blocks.lookup p ≠ some h := by
        intro hp hwait hlookup
        have hpid := hid p hlookup
        exact hnot ⟨hpid ▸ hlookup, hpid ▸ (hj.awaited c hc p).mpr ⟨hp, hwait⟩⟩
      tauto
  · rcases hcase with ⟨-, hmem, rfl⟩ | ⟨-, rfl⟩
    · intro c' hc'
      cases hc'
      rw [Finset.card_erase_of_mem hmem, hj.pending c hc]
    · exact hj.pending

theorem looping_run {acts : List Action} (hj : Looping parts j) (hs : j.status ≠ .READING)
    (hr : run (step f) j acts = some j') : Looping parts j' := by
  refine (late_run (I := Looping parts) (fun j a j' hj _ hstep hlate => ?_) hj hs hr).1
  have htracked := tracked_step hj.tracked hstep
  cases hlate with
  | same => exact hj
  | uploadBlock h => exact hj.uploadBlock h
  | receive h => exact hj.receive h
  | commit hc hcommit =>
    rw [(commit_job hcommit).2.2] at htracked ⊢
    exact ⟨htracked, hj.started, nofun, nofun⟩

/-- Before the loop nothing is received, so it waits for every entry. -/
theorem Tracked.not_received_complete (hj : j.Tracked) {entry : Entry}
    (h : j.complete entry parts = (j', none)) (p : Int32) : ¬ j'.Received p := by
  obtain ⟨hread, -, rfl⟩ := complete_eq h
  exact hj.not_received hread p

theorem Tracked.looping (hj : j.Tracked) {entry : Entry} (h : j.complete entry parts = (j', none))
    (hnodup : (entry.passed parts).Nodup)
    (hstarted : ∀ p ∈ entry.passed parts, (j.current p).map Block.status ≠ some .READING) :
    Looping (entry.passed parts) j' := by
  have htracked := hj.complete entry parts
  rw [h] at htracked
  have hnot := hj.not_received_complete h
  obtain ⟨hread, hblocks, rfl⟩ := complete_eq h
  refine ⟨htracked, fun p hp => ?_, fun c hc p => ?_, fun c hc => ?_⟩
  · obtain ⟨g, hg⟩ := hblocks p hp
    obtain ⟨b, hb, hheap, -⟩ := hj.sound.current hg
    refine ⟨g, b, hg, hheap, fun hst => hstarted p hp ?_⟩
    rw [hb, Option.map_some, hst]
  · cases hc
    rw [List.mem_toFinset, and_iff_left (hnot p)]
  · cases hc
    exact (List.toFinset_card_of_nodup hnodup).symm

/-- The current block of a part that is waited for is received. -/
theorem receive_current {c : Closing} {b : Block} (hc : j.closing = some c) (hpos : 0 < c.pending)
    (hb : j.heap[h]? = some b) (hp : j.blocks.lookup b.info.partId = some h)
    (hmem : b.info.partId ∈ c.pendingMap) (hfin : h ∈ j.finishedBlocks) :
    ∃ j' c', j.receive h = some j' ∧ j'.closing = some c' ∧ c'.pending = c.pending - 1 := by
  simp only [Job.receive, hc, hb, bind, Option.bind_some]
  rw [if_pos ⟨hpos, hfin⟩, if_pos ⟨hp, hmem⟩]
  exact ⟨_, _, rfl, rfl, rfl⟩

theorem Tracked.exists_uploadBlock (hj : j.Tracked) (hup : h ∈ j.uploading) (uploaded : Bool) :
    ∃ j', j.uploadBlock h uploaded = some j' := by
  obtain ⟨b, hb, -⟩ := hj.uploading h hup
  simp only [Job.uploadBlock, hb, bind, Option.bind_some, if_pos hup]
  exact ⟨_, rfl⟩

/-- A completion that can come is received, and counts for its part. -/
theorem Tracked.exists_received (hj : j.Tracked) {c : Closing} (hc : j.closing = some c)
    (hpos : 0 < c.pending) (hp : j.blocks.lookup p = some h) (hmem : p ∈ c.pendingMap)
    (hcome : h ∈ j.uploading ∨ h ∈ j.finishedBlocks) :
    ∃ acts j' c', run (step f) j acts = some j' ∧ j'.closing = some c' ∧
      c'.pending = c.pending - 1 ∧ j'.Received p := by
  have hfinished : ∀ j : Job, j.Tracked → j.closing = some c → j.blocks.lookup p = some h →
      h ∈ j.finishedBlocks → ∃ j' c', j.receive h = some j' ∧ j'.closing = some c' ∧
        c'.pending = c.pending - 1 ∧ j'.Received p := by
    intro j hj hc hp hfin
    obtain ⟨b, hb, rfl⟩ := hj.sound.keyed p h hp
    obtain ⟨j', c', hstep, hc', hpending⟩ := receive_current hc hpos hb hp hmem hfin
    exact ⟨j', c', hstep, hc', hpending, (hj.received_receive hstep).mpr (.inr hp)⟩
  rcases hcome with hup | hfin
  · -- the upload ends first
    obtain ⟨j₁, hstep⟩ := hj.exists_uploadBlock hup true
    have hj₁ := hj.uploadBlock hstep
    obtain ⟨j', c', hreceive, hend⟩ := hfinished j₁ hj₁
      (by obtain ⟨_, -, -, rfl⟩ := uploadBlock_cases hstep; exact hc)
      (by obtain ⟨_, -, -, rfl⟩ := uploadBlock_cases hstep; exact hp)
      (by
        obtain ⟨_, -, -, rfl⟩ := uploadBlock_cases hstep
        exact List.mem_append_right _ (List.mem_singleton_self h))
    refine ⟨[.uploadBlock h true, .receive h], j', c', ?_, hend⟩
    rw [run_cons, step, hstep, Option.bind_some, run_cons, step, hreceive]
    rfl
  · obtain ⟨j', c', hreceive, hend⟩ := hfinished j hj hc hp hfin
    refine ⟨[.receive h], j', c', ?_, hend⟩
    rw [run_cons, step, hreceive]
    rfl

theorem countP_not_received (parts : List Int32) (hp : j.Received p) :
    (parts.countP fun q => ¬ j.Received q) + parts.count p ≤ parts.length := by
  have hle : (parts.countP fun q => ¬ j.Received q) ≤ parts.countP fun q => ¬ (q == p) := by
    refine List.countP_mono_left fun q _ hq => ?_
    rw [decide_eq_true_iff] at hq ⊢
    exact fun heq => hq (beq_iff_eq.mp heq ▸ hp)
  rw [parts.length_eq_countP_add_countP (· == p), List.count]
  omega

end Job

/-- From a completion that has passed all checks on, whatever happens, the loop waits for exactly
the completions that are to come: this holds exactly if no number is listed twice and no part is
listed whose reader has failed. -/
theorem waits_iff (f : Factory) (key : Bytes) (term : UInt64) (acts : List Action) {j j₁ : Job}
    (hr : run (Job.step f) (createMultipartUploadJob key term) acts = some j) (entry : Entry)
    (parts : List Int32) (h : j.complete entry parts = (j₁, none)) :
    (∀ acts' j' c, run (Job.step f) j₁ acts' = some j' → j'.closing = some c →
        j'.Waits c (entry.passed parts)) ↔
      (entry.passed parts).Nodup ∧
        ∀ p ∈ entry.passed parts, (j.current p).map Block.status ≠ some .READING := by
  have hj := Job.tracked_run hr
  have hnot := hj.not_received_complete h
  have hj₁ := hj.complete entry parts
  rw [h] at hj₁
  constructor
  · intro hwaits
    obtain ⟨-, -, rfl⟩ := Job.complete_eq h
    have hstart := hwaits [] _ _ rfl rfl
    refine ⟨List.nodup_iff_count_le_one.mpr fun p => ?_, fun p hp hst => ?_⟩
    · by_contra hcount
      -- one completion takes one from `pending` and two entries from the list
      have hp : p ∈ entry.passed parts := List.count_pos_iff.mp (by omega)
      obtain ⟨g, hg, hcome⟩ := hstart.coming p hp (hnot p)
      obtain ⟨acts', j', c', hrun, hc', hpending, hreceived⟩ := hj₁.exists_received (f := f) rfl
        (List.length_pos_of_mem hp) hg (List.mem_toFinset.mpr hp) hcome
      have hle := Job.countP_not_received (entry.passed parts) hreceived
      rw [← (hwaits acts' j' c' hrun hc').pending, hpending] at hle
      dsimp only at hle
      omega
    · obtain ⟨b, hb, hst⟩ := Option.map_eq_some_iff.mp hst
      obtain ⟨g, hg, hcome⟩ := hstart.coming p hp (hnot p)
      rw [Job.current, show j.blocks.lookup p = some g from hg] at hb
      exact hj.not_reading hcome hb hst
  · rintro ⟨hnodup, hstarted⟩ acts' j' c hrun hc
    have hloop := hj.looping h hnodup hstarted
    have hs : j₁.status ≠ .READING := by
      obtain ⟨-, -, rfl⟩ := Job.complete_eq h
      exact (by decide : BlockStatus.UPLOADING ≠ .READING)
    exact (Job.looping_run hloop hs hrun).waits hnodup hc

theorem waits_iff_nameBoth :
    ∃ j₁, (after writeTwo).complete .completeMultipartUploadJob [1, 2] = (j₁, none) ∧
      ∀ acts' j' c, run (Job.step hashing) j₁ acts' = some j' → j'.closing = some c →
        j'.Waits c [1, 2] := by
  refine ⟨_, rfl, (waits_iff hashing [107] 1 writeTwo rfl .completeMultipartUploadJob [1, 2]
    rfl).mpr ⟨by decide, ?_⟩⟩
  change ∀ p ∈ ([1, 2] : List Int32), _
  rw [List.forall_mem_cons, List.forall_mem_singleton]
  decide

/-- `CloseMultiPart` waits, and nothing can happen to the job any more. -/
def Hangs (f : Factory) (j : Job) : Prop :=
  (∃ c, j.closing = some c ∧ 0 < c.pending) ∧
    ∀ acts j', run (Job.step f) j acts = some j' → j' = j

theorem hangs_of_no_uploads {f : Factory} {j : Job} {c : Closing} (hs : j.status ≠ .READING)
    (hc : j.closing = some c) (hpos : 0 < c.pending) (hup : j.uploading = [])
    (hfin : j.finishedBlocks = []) : Hangs f j := by
  refine ⟨⟨c, hc, hpos⟩, fun acts j' hr => ?_⟩
  refine (Job.late_run (I := fun j' => j' = j) (fun _ _ j' heq _ _ hlate => ?_) rfl hs hr).1
  subst heq
  cases hlate with
  | same => rfl
  | uploadBlock hstep =>
    obtain ⟨-, -, hin, -⟩ := Job.uploadBlock_cases hstep
    rw [hup] at hin
    cases hin
  | receive hstep =>
    obtain ⟨-, -, -, -, -, hin, -⟩ := Job.receive_cases hstep
    rw [hfin] at hin
    cases hin
  | commit hc' hcommit =>
    rw [hc] at hc'
    cases hc'
    have hzero := (Job.commit_job hcommit).2.1
    omega

def namedTwice : List Action :=
  [.writePart 1 ⟨[[7]], [], none⟩ none, .complete .completeMultipartUploadJob [1, 1],
    .uploadBlock 0 true, .receive 0]

def namedUnread : List Action :=
  [.writePart 1 broken none, .complete .completeMultipartUploadJob [1]]

/-- Both lists pass all checks, and then the call never returns. -/
theorem completion_hangs :
    ((after (namedTwice.take 1)).complete .completeMultipartUploadJob [1, 1]).2 = none ∧
      (after namedTwice).Received 1 ∧ Hangs hashing (after namedTwice) ∧
      ((after (namedUnread.take 1)).complete .completeMultipartUploadJob [1]).2 = none ∧
      Hangs hashing (after namedUnread) :=
  ⟨by decide, by decide, hangs_of_no_uploads (by decide) rfl (by decide) rfl rfl, by decide,
    hangs_of_no_uploads (by decide) rfl (by decide) rfl rfl⟩

end Ecos.Client.Multipart
