import Ecos.Client.PartBlocks
import Ecos.Client.WriterBlocks

namespace Ecos.OrphanedBlocks
open Go Logic Alaya Client BlockReferences Multipart

/-- An `EcosWriter` of either kind. -/
inductive Upload where
  | writer (w : WriterBlocks.Writer)
  | job (f : Factory) (j : Job)

structure System where
  /-- term of the cluster info -/
  term : UInt64
  register : Register
  uploads : List Upload := []
  /-- the IDs of the blocks stored by Gaia -/
  gaia : List Bytes := []
  /-- the IDs of the blocks whose file has been created at some time -/
  created : List Bytes := []
  /-- the block IDs generated so far -/
  generated : List Bytes := []
  /-- blocks that an `abortBlock` goroutine deletes -/
  aborts : List Bytes := []
  /-- metas that `copyObject` has looked up and not yet written -/
  copies : List ObjectMeta := []
  /-- metas that `DeleteMeta` has looked up and not yet deleted -/
  deletes : List ObjectMeta := []
  /-- the goroutines of `RemoveObjectBlocks` -/
  cleanups : List (Sweep Bytes) := []

namespace System

def writer? (s : System) (i : ℕ) : Option WriterBlocks.Writer :=
  match s.uploads[i]? with
  | some (.writer w) => some w
  | _ => none

def job? (s : System) (i : ℕ) : Option (Factory × Job) :=
  match s.uploads[i]? with
  | some (.job f j) => some (f, j)
  | _ => none

def setUpload (s : System) (i : ℕ) (u : Upload) : System :=
  { s with uploads := s.uploads.set i u }

/-- `os.Remove` on the block's files -/
def removeFile (s : System) (id : Bytes) : System := { s with gaia := s.gaia.filter (· ≠ id) }

end System

def Upload.pending : Upload → List Bytes
  | .writer w => blockIds w.uploading
  | .job _ j => j.uploading.filterMap j.blockIdAt

inductive Action where
  | getEcosWriter (bucketInfo : BucketInfo) (key : Bytes)
  | getCurBlock (i : ℕ)
  | commitCurBlock (i : ℕ) (info : BlockInfo)
  | close (i : ℕ)
  | abort (i : ℕ)
  | receive (i : ℕ) (info : BlockInfo)
  /-- `commitMeta` and the end of `Close`; the meta is given up to its ID, group and blocks -/
  | commitMeta (i : ℕ) (objectMeta : ObjectMeta)
  | createMultipartUploadJob (f : Factory) (key : Bytes)
  | writePart (i : ℕ) (partID : Int32) (reader : Reader)
  | completeMultipartUploadJob (i : ℕ) (entry : Entry) (parts : List Int32)
  | receivePart (i h : ℕ)
  | commitPartialMeta (i : ℕ)
  | abortMultipartUploadJob (i : ℕ)
  /-- Gaia creates the files of a block that is being uploaded -/
  | createFile (i : ℕ) (id : Bytes)
  | uploadBlock (i : ℕ) (info : BlockInfo)
  | uploadPart (i h : ℕ)
  | abortBlock (i : ℕ)
  | lookUpSource (objID : Bytes)
  | copy (bucketInfo : BucketInfo) (key : Bytes) (i : ℕ)
  | lookUpDeleted (objID : Bytes)
  | delete (i : ℕ)
  /-- the next round of a clean-up -/
  | removeBlock (i : ℕ)

section
variable (ring : Mapper) (a : AlayaEnv)

/-- `WritePart` without an error. The block of a part that is written again is deleted at once, and
once more in the background. -/
def writePart (s : System) (i : ℕ) (p : Int32) (reader : Reader) : Option System := do
  let (f, j) ← s.job? i
  match j.writePart f p reader none with
  | (_, .error _) => none
  | (j', .ok id) =>
    -- `GenBlockId` gives a new UUID
    if id ∈ s.generated then none
    else
      let s' := { s.setUpload i (.job f j') with generated := id :: s.generated }
      match addPartID j.partIDs p with
      | some _ => some s'
      | none => do
        let victim ← j.blockIdOf p
        if victim ∈ s.gaia then some { s'.removeFile victim with aborts := victim :: s.aborts }
        else none

/-- A round of `RemoveObjectBlocks`. A block that is not there is an error, which ends it. -/
def removeBlock (s : System) (i : ℕ) : Option System := do
  let c ← s.cleanups[i]?
  match c.things[c.next]? with
  | none => some { s with cleanups := s.cleanups.eraseIdx i }
  | some id =>
    if id ∈ s.gaia then
      some { s.removeFile id with cleanups := s.cleanups.set i { c with next := c.next + 1 } }
    else some { s with cleanups := s.cleanups.eraseIdx i }

/-- What `commitMeta` of a writer submits. -/
def submitted (w : WriterBlocks.Writer) (m : ObjectMeta) : ObjectMeta :=
  addressed ring w.bucketInfo w.key { m with blocks := w.blocks }

def step (s : System) : Action → Option System
  | .getEcosWriter bucketInfo key =>
    some { s with uploads := s.uploads ++ [.writer { bucketInfo, key }] }
  | .getCurBlock i => do
    let w ← s.writer? i
    let w' ← w.getCurBlock
    return s.setUpload i (.writer w')
  | .commitCurBlock i info => do
    let w ← s.writer? i
    let w' ← w.commitCurBlock info
    if info.blockId ∈ s.generated then none
    else some { s.setUpload i (.writer w') with generated := info.blockId :: s.generated }
  | .close i => do
    let w ← s.writer? i
    let w' ← w.close
    return s.setUpload i (.writer w')
  | .abort i => do
    let w ← s.writer? i
    let w' ← w.abort
    return s.setUpload i (.writer w')
  | .receive i info => do
    let w ← s.writer? i
    let w' ← w.receive info
    let s' := s.setUpload i (.writer w')
    if w.status = .ABORTED then some { s' with aborts := info.blockId :: s.aborts } else some s'
  | .commitMeta i m => do
    let w ← s.writer? i
    let w' ← w.finish
    let register ← (recordObjectMeta ring a s.register s.term s.term
      (submitted ring w m)).toOption
    return { s.setUpload i (.writer w') with register := register }
  | .createMultipartUploadJob f key =>
    some { s with uploads := s.uploads ++ [.job f (createMultipartUploadJob key s.term)] }
  | .writePart i p reader => writePart s i p reader
  | .completeMultipartUploadJob i entry parts => do
    let (f, j) ← s.job? i
    match j.complete entry parts with
    | (j', none) => some (s.setUpload i (.job f j'))
    | (_, some _) => none
  | .receivePart i h => do
    let (f, j) ← s.job? i
    let j' ← j.receive h
    return s.setUpload i (.job f j')
  | .commitPartialMeta i => do
    let (f, j) ← s.job? i
    let c ← j.closing
    let r ← j.commit f c [.ok]
    let register ← (recordObjectMeta ring a s.register s.term s.term r.objectMeta).toOption
    return { s.setUpload i (.job f r.job) with register := register }
  | .abortMultipartUploadJob i => do
    let (f, j) ← s.job? i
    match j.abort with
    | (j', none) => some (s.setUpload i (.job f j'))
    | (_, some _) => none
  | .createFile i id => do
    let u ← s.uploads[i]?
    if id ∈ u.pending ∧ id ∉ s.created then
      some { s with gaia := id :: s.gaia, created := id :: s.created }
    else none
  | .uploadBlock i info => do
    let w ← s.writer? i
    let w' ← w.uploadBlock info
    if info.blockId ∈ s.created then some (s.setUpload i (.writer w')) else none
  | .uploadPart i h => do
    let (f, j) ← s.job? i
    let id ← j.blockIdAt h
    let j' ← j.uploadBlock h true
    if id ∈ s.created then some (s.setUpload i (.job f j')) else none
  | .abortBlock i => do
    let id ← s.aborts[i]?
    return { s.removeFile id with aborts := s.aborts.eraseIdx i }
  | .lookUpSource objID => do
    let m ← (getObjectMeta ring a s.register s.term s.term objID).toOption
    return { s with copies := m :: s.copies }
  | .copy bucketInfo key i => do
    let m ← s.copies[i]?
    let register ← (recordObjectMeta ring a s.register s.term s.term
      (addressed ring bucketInfo key m)).toOption
    return { s with register := register, copies := s.copies.eraseIdx i }
  | .lookUpDeleted objID => do
    let m ← (getObjectMeta ring a s.register s.term s.term objID).toOption
    return { s with deletes := m :: s.deletes }
  | .delete i => do
    let m ← s.deletes[i]?
    let register ← (deleteMeta s.register m).toOption
    return { s with
      register := register
      deletes := s.deletes.eraseIdx i
      cleanups := ⟨blockIds m.blocks, 0⟩ :: s.cleanups }
  | .removeBlock i => removeBlock s i

end

def Upload.Done : Upload → Prop
  | .writer w => w.Done
  | .job _ j => j.Done

instance Upload.decidableDone : ∀ u : Upload, Decidable u.Done
  | .writer w => WriterBlocks.Writer.decidableDone w
  | .job _ j => Job.decidableDone j

structure Quiescent (s : System) : Prop where
  uploads : ∀ u ∈ s.uploads, u.Done
  aborts : s.aborts = []
  copies : s.copies = []
  deletes : s.deletes = []
  cleanups : s.cleanups = []

instance decidableQuiescent (s : System) : Decidable (Quiescent s) :=
  decidable_of_iff ((∀ u ∈ s.uploads, u.Done) ∧ s.aborts = [] ∧ s.copies.isEmpty ∧
      s.deletes.isEmpty ∧ s.cleanups.isEmpty)
    ⟨fun ⟨hu, ha, hc, hd, hs⟩ => ⟨hu, ha, List.isEmpty_iff.mp hc, List.isEmpty_iff.mp hd,
      List.isEmpty_iff.mp hs⟩,
    fun h => ⟨h.uploads, h.aborts, List.isEmpty_iff.mpr h.copies, List.isEmpty_iff.mpr h.deletes,
      List.isEmpty_iff.mpr h.cleanups⟩⟩

def NoOrphans (s : System) : Prop :=
  ∀ id ∈ s.gaia, ∃ e ∈ recorded s.register, id ∈ blockIds e.2.2.blocks

instance decidableNoOrphans (s : System) : Decidable (NoOrphans s) :=
  inferInstanceAs (Decidable (∀ id ∈ s.gaia,
    ∃ e ∈ recorded s.register, id ∈ blockIds e.2.2.blocks))

/-- What the meta under this key lists is in `kept` or listed under another key. -/
def Spares (r : Register) (key : UInt64 × Bytes) (kept : List Bytes) : Prop :=
  ∀ e ∈ recorded r, (e.1, e.2.1) = key → ∀ id ∈ blockIds e.2.2.blocks,
    id ∈ kept ∨ ∃ e' ∈ recorded r, (e'.1, e'.2.1) ≠ key ∧ id ∈ blockIds e'.2.2.blocks

instance decidableSpares (r : Register) (key : UInt64 × Bytes) (kept : List Bytes) :
    Decidable (Spares r key kept) :=
  inferInstanceAs (Decidable (∀ e ∈ recorded r, (e.1, e.2.1) = key →
    ∀ id ∈ blockIds e.2.2.blocks, id ∈ kept ∨
      ∃ e' ∈ recorded r, (e'.1, e'.2.1) ≠ key ∧ id ∈ blockIds e'.2.2.blocks))

/-- Recording the meta spares the blocks of the one that it replaces. -/
def SparesReplaced (r : Register) (m : ObjectMeta) : Prop :=
  Spares r (m.pgId, cleanObjectKey m.objId) (blockIds m.blocks)

instance decidableSparesReplaced (r : Register) (m : ObjectMeta) :
    Decidable (SparesReplaced r m) := decidableSpares r _ _

/-- No meta is replaced that alone lists a block, a deletion finds the meta it has looked up, a
job is committed when its uploads have ended, and no job is aborted that has parts. -/
def Tidy (ring : Mapper) (s : System) : Action → Prop
  | .commitMeta i m => ∀ w ∈ s.writer? i, SparesReplaced s.register (submitted ring w m)
  | .commitPartialMeta i => ∀ x ∈ s.job? i, x.2.uploading = [] ∧
      ∀ m ∈ x.2.genPartialMeta x.1, SparesReplaced s.register m
  | .copy bucketInfo key i =>
    ∀ m ∈ s.copies[i]?, SparesReplaced s.register (addressed ring bucketInfo key m)
  | .delete i => ∀ m ∈ s.deletes[i]?, Spares s.register (m.pgId, m.objId) (blockIds m.blocks)
  | .abortMultipartUploadJob i => ∀ x ∈ s.job? i, x.2.partIDs = []
  | _ => True

instance decidableTidy (ring : Mapper) (s : System) : ∀ action, Decidable (Tidy ring s action)
  | .commitMeta i m => inferInstanceAs (Decidable (∀ w ∈ s.writer? i,
      SparesReplaced s.register (submitted ring w m)))
  | .commitPartialMeta i => inferInstanceAs (Decidable (∀ x ∈ s.job? i, x.2.uploading = [] ∧
      ∀ m ∈ x.2.genPartialMeta x.1, SparesReplaced s.register m))
  | .copy bucketInfo key i => inferInstanceAs (Decidable (∀ m ∈ s.copies[i]?,
      SparesReplaced s.register (addressed ring bucketInfo key m)))
  | .delete i => inferInstanceAs (Decidable (∀ m ∈ s.deletes[i]?,
      Spares s.register (m.pgId, m.objId) (blockIds m.blocks)))
  | .abortMultipartUploadJob i =>
    inferInstanceAs (Decidable (∀ x ∈ s.job? i, x.2.partIDs = []))
  | .getEcosWriter _ _ | .getCurBlock _ | .commitCurBlock _ _ | .close _ | .abort _
  | .receive _ _ | .createMultipartUploadJob _ _ | .writePart _ _ _
  | .completeMultipartUploadJob _ _ _ | .receivePart _ _ | .createFile _ _ | .uploadBlock _ _
  | .uploadPart _ _ | .abortBlock _ | .lookUpSource _ | .lookUpDeleted _ | .removeBlock _ =>
    isTrue trivial

def Upload.maker : Upload → Maker Bytes
  | .writer w => w.maker
  | .job _ j => j.maker

def Upload.WF : Upload → Prop
  | .writer w => w.WF
  | .job _ j => j.WF

theorem Upload.pending_eq (u : Upload) : u.pending = u.maker.pending := by
  cases u <;> rfl

namespace System

def lists (register : Register) (copies deletes : List ObjectMeta) : Set (List Bytes) := fun L =>
  (∃ e ∈ recorded register, blockIds e.2.2.blocks = L) ∨
    (∃ m ∈ copies, blockIds m.blocks = L) ∨ ∃ m ∈ deletes, blockIds m.blocks = L

/-- The uploads by number; one that does not exist has made nothing. -/
def makers (uploads : List Upload) (i : ℕ) : Maker Bytes := uploads[i]?.elim {} Upload.maker

def ledger (s : System) : Ledger Bytes where
  makers := makers s.uploads
  generated := s.generated
  store := s.gaia
  created := s.created
  discarded := s.aborts
  lists := lists s.register s.copies s.deletes
  sweeps := s.cleanups

structure Sound (s : System) : Prop where
  ledger : s.ledger.Sound
  uploads : ∀ u ∈ s.uploads, u.WF

variable {s : System} {i : ℕ} {u u' : Upload}

theorem makers_eq (hu : s.uploads[i]? = some u) : makers s.uploads i = u.maker := by
  rw [makers, hu]
  rfl

theorem makers_set (hu : s.uploads[i]? = some u) :
    makers (s.uploads.set i u') = Function.update (makers s.uploads) i u'.maker := by
  obtain ⟨hi, -⟩ := List.getElem?_eq_some_iff.mp hu
  funext j
  by_cases hj : j = i
  · rw [hj, Function.update_self, makers, List.getElem?_set_self hi]
    rfl
  · rw [Function.update_of_ne hj, makers, List.getElem?_set_ne (Ne.symm hj), makers]

theorem makers_concat (uploads : List Upload) (hu : u.maker = {}) :
    makers (uploads ++ [u]) = makers uploads := by
  funext j
  rw [makers, makers]
  rcases Nat.lt_trichotomy j uploads.length with hj | rfl | hj
  · rw [List.getElem?_append_left hj]
  · rw [List.getElem?_concat_length, List.getElem?_eq_none (Nat.le_refl _)]
    exact hu
  · rw [List.getElem?_eq_none (by simpa using hj), List.getElem?_eq_none (by omega)]

theorem Sound.uploads_set (h : s.Sound) (hwf : u'.WF) :
    ∀ v ∈ (s.setUpload i u').uploads, v.WF := by
  intro v hv
  rcases List.mem_or_eq_of_mem_set hv with hv | rfl
  · exact h.uploads v hv
  · exact hwf

/-- An upload moves on, makes blocks and gives others up. -/
theorem Sound.moved (h : s.Sound) (hu : s.uploads[i]? = some u) {new gone : List Bytes}
    (hm : u'.WF ∧ s.ledger.Moves u.maker u'.maker new gone) :
    Sound { s.setUpload i u' with
      generated := new ++ s.generated
      aborts := gone ++ s.aborts } := by
  obtain ⟨hwf, hm⟩ := hm
  rw [← makers_eq hu] at hm
  have hmoved := h.ledger.moved hm
  rw [Ledger.moved, System.ledger, ← makers_set hu] at hmoved
  exact ⟨hmoved, h.uploads_set hwf⟩

theorem Sound.moved_writer (h : s.Sound) {w w' : WriterBlocks.Writer}
    (hu : s.uploads[i]? = some (.writer w)) {new gone : List Bytes}
    (hm : w'.WF ∧ s.ledger.Moves w.maker w'.maker new gone) :
    Sound { s.setUpload i (.writer w') with
      generated := new ++ s.generated
      aborts := gone ++ s.aborts } := h.moved hu hm

theorem Sound.moved_job (h : s.Sound) {f : Factory} {j j' : Job}
    (hu : s.uploads[i]? = some (.job f j)) {new gone : List Bytes}
    (hm : j'.WF ∧ s.ledger.Moves j.maker j'.maker new gone) :
    Sound { s.setUpload i (.job f j') with
      generated := new ++ s.generated
      aborts := gone ++ s.aborts } := h.moved hu hm

/-- An upload moves on with the same blocks. -/
theorem Sound.setUpload (h : s.Sound) (hu : s.uploads[i]? = some u)
    (hm : u'.WF ∧ u'.maker = u.maker) : Sound (s.setUpload i u') := by
  refine ⟨?_, h.uploads_set hm.1⟩
  have hsame : makers (s.uploads.set i u') = makers s.uploads := by
    rw [makers_set hu, hm.2, ← makers_eq hu, Function.update_eq_self]
  rw [System.ledger, System.setUpload, hsame]
  exact h.ledger

/-- A new upload has made nothing yet. -/
theorem Sound.newUpload (h : s.Sound) (hwf : u.WF) (hmaker : u.maker = {}) :
    Sound { s with uploads := s.uploads ++ [u] } := by
  refine ⟨?_, ?_⟩
  · rw [System.ledger, makers_concat _ hmaker]
    exact h.ledger
  · intro v hv
    rcases List.mem_append.mp hv with hv | hv
    · exact h.uploads v hv
    · rw [List.mem_singleton.mp hv]
      exact hwf

theorem Sound.createFile (h : s.Sound) (hu : s.uploads[i]? = some u) {id : Bytes}
    (hid : id ∈ u.pending ∧ id ∉ s.created) :
    Sound { s with gaia := id :: s.gaia, created := id :: s.created } := by
  have hpending : id ∈ (makers s.uploads i).pending := by
    rw [makers_eq hu, ← Upload.pending_eq]
    exact hid.1
  exact ⟨h.ledger.arrive hpending hid.2, h.uploads⟩

theorem Sound.removeFile (h : s.Sound) {id : Bytes} (hid : id ∈ s.aborts) :
    Sound (s.removeFile id) := ⟨h.ledger.remove hid, h.uploads⟩

theorem Sound.abortBlock (h : s.Sound) {id : Bytes} (hid : s.aborts[i]? = some id) :
    Sound { s.removeFile id with aborts := s.aborts.eraseIdx i } := by
  have hremoved := h.removeFile (List.mem_of_getElem? hid)
  refine ⟨hremoved.ledger.forget (s.aborts.eraseIdx i)
    (fun x hx => List.mem_of_mem_eraseIdx hx) ?_, h.uploads⟩
  intro x hx hmem
  have hne : x ≠ id := by simpa using (List.mem_filter.mp hx).2
  obtain ⟨j, hj⟩ := List.mem_iff_getElem?.mp hmem
  have hji : j ≠ i := by
    rintro rfl
    change s.aborts[j]? = some x at hj
    rw [hid] at hj
    exact hne (Option.some.inj hj).symm
  exact List.mem_eraseIdx_iff_getElem?.mpr ⟨j, hji, hj⟩

theorem uploads_of_writer? {w : WriterBlocks.Writer}
    (h : s.writer? i = some w) : s.uploads[i]? = some (.writer w) := by
  unfold writer? at h
  split at h
  · rename_i w' hw
    cases h
    exact hw
  · cases h

theorem uploads_of_job? {x : Factory × Job} (h : s.job? i = some x) :
    s.uploads[i]? = some (.job x.1 x.2) := by
  unfold job? at h
  split at h
  · rename_i f j hj
    cases h
    exact hj
  · cases h

/-- What an upload has made has a generated ID, and what is uploading is accounted for. -/
theorem Sound.facts (h : s.Sound) (hu : s.uploads[i]? = some u) :
    u.WF ∧ (∀ x ∈ u.maker.made, x ∈ s.generated) ∧
      (∀ x ∈ u.maker.pending, x ∈ u.maker.held ∨ x ∈ s.created) ∧
      ∀ x ∈ u.maker.live, x ∈ s.gaia ∨ x ∈ u.maker.pending := by
  refine ⟨h.uploads u (List.mem_of_getElem? hu), ?_, ?_, ?_⟩
  all_goals rw [← makers_eq hu]
  · exact fun x hx => h.ledger.made_generated hx
  · exact fun x hx => h.ledger.awaited hx
  · exact fun x hx => (h.ledger.supplied hx).imp_right And.left

variable {s' : System}

theorem Sound.writePart (h : s.Sound) {p : Int32} {reader : Reader}
    (hs : writePart s i p reader = some s') : s'.Sound := by
  simp only [OrphanedBlocks.writePart, Option.bind_eq_bind, Option.bind_eq_some_iff] at hs
  obtain ⟨⟨f, j⟩, hx, hs⟩ := hs
  have hu := uploads_of_job? hx
  obtain ⟨hwf, hmade, hawaited, -⟩ := h.facts hu
  change j.WF at hwf
  change ∀ x ∈ j.heapIds, x ∈ s.ledger.generated at hmade
  change ∀ x ∈ j.maker.pending, x ∈ j.maker.held ∨ x ∈ s.ledger.created at hawaited
  dsimp only at hs
  split at hs
  · cases hs
  rename_i j' id hwrite
  obtain ⟨hread, block, partIDs, rfl, hpart, hids, rfl⟩ := Job.writePart_ok hwrite
  split_ifs at hs with hnew
  -- the part is new, or it has a block that is stored
  split at hs
  · rename_i ids hadd
    cases hs
    obtain rfl : ids = partIDs := by
      rcases hids with hids | ⟨hids, -⟩ <;> rw [hadd] at hids <;> cases hids
      rfl
    obtain ⟨hp, hsub⟩ := addPartID_subset hadd
    have hparts : ∀ q, q ∈ ids ↔ q = p ∨ q ∈ j.partIDs :=
      fun q => ⟨Job.mem_addPartID hadd, fun hq => hq.elim (fun hq => hq ▸ hp) (hsub q)⟩
    have hgone : ∀ x, x ∈ ([] : List Bytes) ↔ p ∈ j.partIDs ∧ j.blockIdOf p = some x := by
      intro x
      have hnot := not_mem_of_addPartID hwf.sorted hadd
      simp [hnot]
    exact h.moved_job hu (hwf.withPart_moves hread hpart hparts
      (sorted_addPartID hwf.sorted hadd) hgone nofun hmade hnew hawaited)
  · rename_i hadd
    simp only [Option.bind_eq_some_iff] at hs
    obtain ⟨victim, hvictim, hs⟩ := hs
    split_ifs at hs with hstored
    cases hs
    obtain rfl : partIDs = j.partIDs := by
      rcases hids with hids | ⟨-, hids⟩
      · rw [hadd] at hids
        cases hids
      · exact hids
    have hp := mem_of_addPartID_eq_none hadd
    have hparts : ∀ q, q ∈ j.partIDs ↔ q = p ∨ q ∈ j.partIDs :=
      fun q => ⟨.inr, fun hq => hq.elim (fun hq => hq ▸ hp) id⟩
    have hgone : ∀ x, x ∈ [victim] ↔ p ∈ j.partIDs ∧ j.blockIdOf p = some x := by
      intro x
      rw [List.mem_singleton, hvictim, Option.some.injEq]
      exact ⟨fun hx => ⟨hp, hx.symm⟩, fun hx => hx.2.symm⟩
    have hcreated : ∀ x ∈ [victim], x ∈ s.ledger.created := by
      intro x hx
      rw [List.mem_singleton.mp hx]
      exact h.ledger.stored_created victim hstored
    have hmoved := h.moved_job hu (hwf.withPart_moves hread hpart hparts hwf.sorted hgone hcreated
      hmade hnew hawaited)
    exact hmoved.removeFile List.mem_cons_self

variable {ring : Mapper} {a : AlayaEnv}

/-- A meta that is recorded over another keeps the blocks of both listed. -/
theorem recorded_spared {r r' : Register} {term : UInt64} {m : ObjectMeta}
    (hr : recordObjectMeta ring a r term term m = .ok r') (hg : SparesReplaced r m) {id : Bytes}
    (hid : id ∈ blockIds m.blocks ∨ ∃ e ∈ recorded r, id ∈ blockIds e.2.2.blocks) :
    ∃ e ∈ recorded r', id ∈ blockIds e.2.2.blocks := by
  have hput := recordObjectMeta_eq_ok hr
  rcases hid with hid | ⟨e, he, hid⟩
  · exact ⟨_, recorded_put_self hput, hid⟩
  · by_cases hkey : (e.1, e.2.1) = (m.pgId, cleanObjectKey m.objId)
    · rcases hg e he hkey id hid with hid | ⟨e', he', hne, hid⟩
      · exact ⟨_, recorded_put_self hput, hid⟩
      · exact ⟨e', recorded_propose_of_ne hput he' hne, hid⟩
    · exact ⟨e, recorded_propose_of_ne hput he hkey, hid⟩

section Record
variable {r r' : Register} {term : UInt64} {m : ObjectMeta}
  {copies copies' deletes : List ObjectMeta}

/-- The lists of a ledger once a meta is recorded. -/
theorem sound_record {l : Ledger Bytes} (h : l.Sound)
    (hlists : l.lists = insert (blockIds m.blocks) (lists r copies deletes))
    (hr : recordObjectMeta ring a r term term m = .ok r') (hg : SparesReplaced r m)
    (hcopies : ∀ m' ∈ copies', m' ∈ copies)
    (hkept : ∀ m' ∈ copies, m' ∈ copies' ∨ m'.blocks = m.blocks) :
    Ledger.Sound { l with lists := lists r' copies' deletes } := by
  refine h.relist (lists r' copies' deletes) ?_ ?_
  · rw [hlists]
    rintro L (⟨⟨pg, k, m'⟩, he, rfl⟩ | ⟨m', hm', rfl⟩ | hL)
    · rcases recorded_recordObjectMeta hr he with hb | he
      · exact .inl (congrArg blockIds hb)
      · exact .inr (.inl ⟨_, he, rfl⟩)
    · exact .inr (.inr (.inl ⟨m', hcopies m' hm', rfl⟩))
    · exact .inr (.inr (.inr hL))
  · rw [hlists]
    intro L hL id hid _
    have hrecorded : (id ∈ blockIds m.blocks ∨
        ∃ e ∈ recorded r, id ∈ blockIds e.2.2.blocks) →
          ∃ L' ∈ lists r' copies' deletes, id ∈ L' := by
      intro hid
      obtain ⟨e, he, hid⟩ := recorded_spared hr hg hid
      exact ⟨_, .inl ⟨e, he, rfl⟩, hid⟩
    left
    rcases hL with rfl | ⟨e, he, rfl⟩ | ⟨m', hm', rfl⟩ | hL
    · exact hrecorded (.inl hid)
    · exact hrecorded (.inr ⟨e, he, hid⟩)
    · rcases hkept m' hm' with hm' | hb
      · exact ⟨_, .inr (.inl ⟨m', hm', rfl⟩), hid⟩
      · exact hrecorded (.inl (hb ▸ hid))
    · exact ⟨L, .inr (.inr hL), hid⟩

end Record

/-- An upload commits its meta. -/
theorem Sound.commit (h : s.Sound) (hu : s.uploads[i]? = some u) (u' : Upload) {m : ObjectMeta}
    (hm : u'.WF ∧ s.ledger.HandsOver u.maker u'.maker ∧ u.maker.live = blockIds m.blocks)
    {register : Register}
    (hr : recordObjectMeta ring a s.register s.term s.term m = .ok register)
    (hg : SparesReplaced s.register m) :
    Sound { s.setUpload i u' with register := register } := by
  obtain ⟨hwf, hover, hlive⟩ := hm
  rw [← makers_eq hu] at hover hlive
  have hhanded := h.ledger.handedOver hover
  rw [Ledger.handedOver, System.ledger, ← makers_set hu, hlive] at hhanded
  exact ⟨sound_record hhanded rfl hr hg (fun _ hm' => hm') fun _ hm' => .inl hm',
    h.uploads_set hwf⟩

/-- The metas that are left once one of them is done. -/
theorem mem_eraseIdx_or {ms : List ObjectMeta} {m m' : ObjectMeta} (hm : ms[i]? = some m)
    (hm' : m' ∈ ms) : m' ∈ ms.eraseIdx i ∨ m' = m := by
  obtain ⟨k, hk⟩ := List.mem_iff_getElem?.mp hm'
  by_cases hki : k = i
  · rw [hki, hm] at hk
    exact .inr (Option.some.inj hk).symm
  · exact .inl (List.mem_eraseIdx_iff_getElem?.mpr ⟨k, hki, hk⟩)

theorem Sound.copy (h : s.Sound) {m : ObjectMeta} (hm : s.copies[i]? = some m)
    {bucketInfo : BucketInfo} {key : Bytes} {register : Register}
    (hr : recordObjectMeta ring a s.register s.term s.term (addressed ring bucketInfo key m) =
      .ok register)
    (hg : SparesReplaced s.register (addressed ring bucketInfo key m)) :
    Sound { s with register := register, copies := s.copies.eraseIdx i } := by
  have hlist : blockIds m.blocks ∈ lists s.register s.copies s.deletes :=
    .inr (.inl ⟨m, List.mem_of_getElem? hm, rfl⟩)
  have hinsert : s.ledger.lists = insert (blockIds (addressed ring bucketInfo key m).blocks)
      (lists s.register s.copies s.deletes) := (Set.insert_eq_of_mem hlist).symm
  have hrecord := sound_record h.ledger hinsert hr hg
    (fun m' (hm' : m' ∈ s.copies.eraseIdx i) => List.mem_of_mem_eraseIdx hm')
    fun _ hm' => (mem_eraseIdx_or hm hm').imp_right fun heq => by rw [heq]; rfl
  exact ⟨hrecord, h.uploads⟩

/-- Looking a recorded meta up adds no list. -/
theorem Sound.lookUp (h : s.Sound) {m : ObjectMeta} (hm : ∃ e ∈ recorded s.register, e.2.2 = m) :
    Sound { s with copies := m :: s.copies } ∧ Sound { s with deletes := m :: s.deletes } := by
  obtain ⟨e, he, rfl⟩ := hm
  have hlist : blockIds e.2.2.blocks ∈ lists s.register s.copies s.deletes := .inl ⟨e, he, rfl⟩
  have hcopies : lists s.register (e.2.2 :: s.copies) s.deletes =
      lists s.register s.copies s.deletes := by
    ext L
    constructor
    · rintro (hL | ⟨m, hm, rfl⟩ | hL)
      · exact .inl hL
      · rcases List.mem_cons.mp hm with rfl | hm
        · exact hlist
        · exact .inr (.inl ⟨m, hm, rfl⟩)
      · exact .inr (.inr hL)
    · rintro (hL | ⟨m, hm, rfl⟩ | hL)
      · exact .inl hL
      · exact .inr (.inl ⟨m, List.mem_cons_of_mem _ hm, rfl⟩)
      · exact .inr (.inr hL)
  have hdeletes : lists s.register s.copies (e.2.2 :: s.deletes) =
      lists s.register s.copies s.deletes := by
    ext L
    constructor
    · rintro (hL | hL | ⟨m, hm, rfl⟩)
      · exact .inl hL
      · exact .inr (.inl hL)
      · rcases List.mem_cons.mp hm with rfl | hm
        · exact hlist
        · exact .inr (.inr ⟨m, hm, rfl⟩)
    · rintro (hL | hL | ⟨m, hm, rfl⟩)
      · exact .inl hL
      · exact .inr (.inl hL)
      · exact .inr (.inr ⟨m, List.mem_cons_of_mem _ hm, rfl⟩)
  refine ⟨⟨?_, h.uploads⟩, ⟨?_, h.uploads⟩⟩
  · rw [System.ledger, hcopies]
    exact h.ledger
  · rw [System.ledger, hdeletes]
    exact h.ledger

theorem Sound.delete (h : s.Sound) {m : ObjectMeta} (hm : s.deletes[i]? = some m)
    {register : Register} (hr : deleteMeta s.register m = .ok register)
    (hg : Spares s.register (m.pgId, m.objId) (blockIds m.blocks)) :
    Sound { s with
      register := register
      deletes := s.deletes.eraseIdx i
      cleanups := ⟨blockIds m.blocks, 0⟩ :: s.cleanups } := by
  have hlist : blockIds m.blocks ∈ lists s.register s.copies s.deletes :=
    .inr (.inr ⟨m, List.mem_of_getElem? hm, rfl⟩)
  have hswept := h.ledger.sweep hlist
  have hcovered := fun {id : Bytes} => h.ledger.covered_sweep (x := id) hlist
  refine ⟨hswept.relist (lists register s.copies (s.deletes.eraseIdx i)) ?_ ?_, h.uploads⟩
  · rintro L (⟨⟨pg, k, m'⟩, he, rfl⟩ | hL | ⟨m', hm', rfl⟩)
    · exact .inl ⟨_, (recorded_deleteMeta hr he).2, rfl⟩
    · exact .inr (.inl hL)
    · exact .inr (.inr ⟨m', List.mem_of_mem_eraseIdx hm', rfl⟩)
  · -- what the deleted meta has listed is swept, unless another meta lists it
    rintro L (⟨e, he, rfl⟩ | hL | ⟨m', hm', rfl⟩) id hid hstored
    · by_cases hkey : (e.1, e.2.1) = (m.pgId, m.objId)
      · rcases hg e he hkey id hid with hid | ⟨e', he', hne, hid⟩
        · exact .inr (hcovered hid hstored)
        · exact .inl ⟨_, .inl ⟨e', recorded_propose_of_ne hr he' hne, rfl⟩, hid⟩
      · exact .inl ⟨_, .inl ⟨e, recorded_propose_of_ne hr he hkey, rfl⟩, hid⟩
    · exact .inl ⟨L, .inr (.inl hL), hid⟩
    · rcases mem_eraseIdx_or hm hm' with hm' | rfl
      · exact .inl ⟨_, .inr (.inr ⟨m', hm', rfl⟩), hid⟩
      · exact .inr (hcovered hid hstored)

theorem Sound.removeBlock (h : s.Sound) (hs : removeBlock s i = some s') : s'.Sound := by
  simp only [OrphanedBlocks.removeBlock, Option.bind_eq_bind, Option.bind_eq_some_iff] at hs
  obtain ⟨c, hc, hs⟩ := hs
  split at hs
  · rename_i hnone
    cases hs
    refine ⟨h.ledger.stop hc fun x hx => ?_, h.uploads⟩
    rw [hnone] at hx
    cases hx
  · rename_i id hid
    split_ifs at hs with hstored
    · cases hs
      exact ⟨h.ledger.advanced hc hid hstored, h.uploads⟩
    · cases hs
      refine ⟨h.ledger.stop hc fun x hx => ?_, h.uploads⟩
      rw [hid] at hx
      exact Option.some.inj hx ▸ hstored

theorem Sound.setWriter (h : s.Sound) {w w' : WriterBlocks.Writer}
    (hu : s.uploads[i]? = some (.writer w)) (hm : w'.WF ∧ w'.maker = w.maker) :
    Sound (s.setUpload i (.writer w')) := h.setUpload hu hm

theorem Sound.setJob (h : s.Sound) {f : Factory} {j j' : Job}
    (hu : s.uploads[i]? = some (.job f j)) (hm : j'.WF ∧ j'.maker = j.maker) :
    Sound (s.setUpload i (.job f j')) := h.setUpload hu hm

theorem Sound.receive (h : s.Sound) {info : BlockInfo}
    (hs : step ring a s (.receive i info) = some s') : s'.Sound := by
  simp only [step, Option.bind_eq_bind, Option.bind_eq_some_iff] at hs
  obtain ⟨w, hw, w', hreceive, hs⟩ := hs
  have hu := uploads_of_writer? hw
  have hwf : w.WF := (h.facts hu).1
  split_ifs at hs with haborted
  · cases hs
    exact h.moved_writer hu ⟨hwf.receive hreceive, hwf.receive_aborted hreceive haborted⟩
  · cases hs
    have huploading : w.status = .UPLOADING := by
      unfold WriterBlocks.Writer.receive at hreceive
      split_ifs at hreceive with hcond
      exact hcond.1.resolve_right haborted
    exact h.setWriter hu
      ⟨hwf.receive hreceive, WriterBlocks.Writer.maker_receive hreceive huploading⟩

theorem Sound.step (h : s.Sound) {action : Action} (hg : Tidy ring s action)
    (hs : step ring a s action = some s') : s'.Sound := by
  cases action with
  | getEcosWriter bucketInfo key =>
    cases hs
    exact h.newUpload (u := .writer { bucketInfo, key })
      (WriterBlocks.Writer.wf_new bucketInfo key) rfl
  | getCurBlock i =>
    simp only [OrphanedBlocks.step, Option.bind_eq_bind, Option.bind_eq_some_iff] at hs
    obtain ⟨w, hw, w', hw', hs⟩ := hs
    cases hs
    have hu := uploads_of_writer? hw
    exact h.setWriter hu (WriterBlocks.Writer.WF.getCurBlock (h.facts hu).1 hw')
  | commitCurBlock i info =>
    simp only [OrphanedBlocks.step, Option.bind_eq_bind, Option.bind_eq_some_iff] at hs
    obtain ⟨w, hw, w', hw', hs⟩ := hs
    split_ifs at hs with hnew
    cases hs
    have hu := uploads_of_writer? hw
    obtain ⟨hwf, hmade, -⟩ := h.facts hu
    exact h.moved_writer hu (WriterBlocks.Writer.WF.commitCurBlock hwf hw' hmade hnew)
  | close i =>
    simp only [OrphanedBlocks.step, Option.bind_eq_bind, Option.bind_eq_some_iff] at hs
    obtain ⟨w, hw, w', hw', hs⟩ := hs
    cases hs
    have hu := uploads_of_writer? hw
    exact h.setWriter hu (WriterBlocks.Writer.WF.close (h.facts hu).1 hw')
  | abort i =>
    simp only [OrphanedBlocks.step, Option.bind_eq_bind, Option.bind_eq_some_iff] at hs
    obtain ⟨w, hw, w', hw', hs⟩ := hs
    cases hs
    have hu := uploads_of_writer? hw
    exact h.moved_writer hu (WriterBlocks.Writer.WF.abort (h.facts hu).1 hw')
  | receive i info => exact h.receive hs
  | commitMeta i m =>
    simp only [OrphanedBlocks.step, Option.bind_eq_bind, Option.bind_eq_some_iff] at hs
    obtain ⟨w, hw, w', hw', register, hr, hs⟩ := hs
    cases hs
    have hu := uploads_of_writer? hw
    obtain ⟨hwf, -, -, hlive⟩ := h.facts hu
    have hover := WriterBlocks.Writer.WF.finish (l := s.ledger) hwf hw' hlive
    exact h.commit (m := submitted ring w m) hu (.writer w') hover (toOption_eq_some hr) (hg w hw)
  | createMultipartUploadJob f key =>
    cases hs
    exact h.newUpload (u := .job f (createMultipartUploadJob key s.term))
      (Job.wf_new key s.term) rfl
  | writePart i p reader => exact h.writePart hs
  | completeMultipartUploadJob i entry parts =>
    simp only [OrphanedBlocks.step, Option.bind_eq_bind, Option.bind_eq_some_iff] at hs
    obtain ⟨⟨f, j⟩, hx, hs⟩ := hs
    have hu := uploads_of_job? hx
    dsimp only at hs
    split at hs
    · rename_i j' hcomplete
      cases hs
      exact h.setJob hu (Job.WF.complete (h.facts hu).1 hcomplete)
    · cases hs
  | receivePart i g =>
    simp only [OrphanedBlocks.step, Option.bind_eq_bind, Option.bind_eq_some_iff] at hs
    obtain ⟨⟨f, j⟩, hx, j', hj', hs⟩ := hs
    cases hs
    have hu := uploads_of_job? hx
    exact h.setJob hu (Job.WF.receive (h.facts hu).1 hj')
  | commitPartialMeta i =>
    simp only [OrphanedBlocks.step, Option.bind_eq_bind, Option.bind_eq_some_iff] at hs
    obtain ⟨⟨f, j⟩, hx, c, hc, r, hcommit, register, hr, hs⟩ := hs
    cases hs
    have hu := uploads_of_job? hx
    obtain ⟨hwf, -, -, hlive⟩ := h.facts hu
    obtain ⟨hnone, hspares⟩ := hg (f, j) hx
    have hover := Job.WF.commit (l := s.ledger) hwf hc hcommit hnone hlive
    exact h.commit hu (.job f r.job) hover (toOption_eq_some hr)
      (hspares r.objectMeta (Job.commit_job hcommit).1)
  | abortMultipartUploadJob i =>
    simp only [OrphanedBlocks.step, Option.bind_eq_bind, Option.bind_eq_some_iff] at hs
    obtain ⟨⟨f, j⟩, hx, hs⟩ := hs
    have hu := uploads_of_job? hx
    dsimp only at hs
    split at hs
    · rename_i j' habort
      cases hs
      exact h.setJob hu (Job.WF.abort (h.facts hu).1 habort (hg (f, j) hx))
    · cases hs
  | createFile i id =>
    simp only [OrphanedBlocks.step, Option.bind_eq_bind, Option.bind_eq_some_iff] at hs
    obtain ⟨u, hu, hs⟩ := hs
    split_ifs at hs with hid
    cases hs
    exact h.createFile hu hid
  | uploadBlock i info =>
    simp only [OrphanedBlocks.step, Option.bind_eq_bind, Option.bind_eq_some_iff] at hs
    obtain ⟨w, hw, w', hw', hs⟩ := hs
    split_ifs at hs with hcreated
    cases hs
    have hu := uploads_of_writer? hw
    exact h.moved_writer hu (WriterBlocks.Writer.WF.uploadBlock (h.facts hu).1 hw' hcreated)
  | uploadPart i g =>
    simp only [OrphanedBlocks.step, Option.bind_eq_bind, Option.bind_eq_some_iff] at hs
    obtain ⟨⟨f, j⟩, hx, id, hid, j', hj', hs⟩ := hs
    split_ifs at hs with hcreated
    cases hs
    have hu := uploads_of_job? hx
    obtain ⟨hwf, -, hawaited, -⟩ := h.facts hu
    refine h.moved_job hu (Job.WF.uploadBlock hwf hj' (fun x hx => ?_) hawaited)
    rw [hid] at hx
    exact Option.some.inj hx ▸ hcreated
  | abortBlock i =>
    simp only [OrphanedBlocks.step, Option.bind_eq_bind, Option.bind_eq_some_iff] at hs
    obtain ⟨id, hid, hs⟩ := hs
    cases hs
    exact h.abortBlock hid
  | lookUpSource objID =>
    simp only [OrphanedBlocks.step, Option.bind_eq_bind, Option.bind_eq_some_iff] at hs
    obtain ⟨m, hm, hs⟩ := hs
    cases hs
    exact (h.lookUp (recorded_of_getObjectMeta ring a (toOption_eq_some hm))).1
  | copy bucketInfo key i =>
    simp only [OrphanedBlocks.step, Option.bind_eq_bind, Option.bind_eq_some_iff] at hs
    obtain ⟨m, hm, register, hr, hs⟩ := hs
    cases hs
    exact h.copy hm (toOption_eq_some hr) (hg m hm)
  | lookUpDeleted objID =>
    simp only [OrphanedBlocks.step, Option.bind_eq_bind, Option.bind_eq_some_iff] at hs
    obtain ⟨m, hm, hs⟩ := hs
    cases hs
    exact (h.lookUp (recorded_of_getObjectMeta ring a (toOption_eq_some hm))).2
  | delete i =>
    simp only [OrphanedBlocks.step, Option.bind_eq_bind, Option.bind_eq_some_iff] at hs
    obtain ⟨m, hm, register, hr, hs⟩ := hs
    cases hs
    exact h.delete hm (toOption_eq_some hr) (hg m hm)
  | removeBlock i => exact h.removeBlock hs

end System

def start (term : UInt64) (pgs : List UInt64) : System where
  term := term
  register := (BlockReferences.start term pgs).register

theorem sound_start (term : UInt64) (pgs : List UInt64) : (start term pgs).Sound := by
  have hlists : System.lists (start term pgs).register [] [] = ∅ := by
    rw [Set.eq_empty_iff_forall_notMem]
    rintro L (⟨⟨pg, k, m⟩, he, -⟩ | ⟨m, hm, -⟩ | ⟨m, hm, -⟩)
    · obtain ⟨storage, hs, hk⟩ := mem_recorded.mp he
      change (BlockReferences.start term pgs).register[pg]? = some storage at hs
      rw [start_register hs] at hk
      simp [MemoryMetaStorage.empty] at hk
    · cases hm
    · cases hm
  have hledger : (start term pgs).ledger = Ledger.empty := congrArg (Ledger.mk _ _ _ _ _ · _) hlists
  exact ⟨hledger ▸ Ledger.sound_empty, fun u hu => absurd hu List.not_mem_nil⟩

theorem System.Sound.noOrphans {s : System} (h : s.Sound) (hq : Quiescent s) : NoOrphans s := by
  intro id hid
  rcases h.ledger.accounted id hid with ⟨L, hL, hidL⟩ | ⟨c, hc, -⟩ | ⟨i, hheld⟩ | hgone
  · rcases hL with ⟨e, he, rfl⟩ | ⟨m, hm, -⟩ | ⟨m, hm, -⟩
    · exact ⟨e, he, hidL⟩
    · rw [hq.copies] at hm
      cases hm
    · rw [hq.deletes] at hm
      cases hm
  · change c ∈ s.cleanups at hc
    rw [hq.cleanups] at hc
    cases hc
  · -- uploads that are over hold nothing
    change id ∈ (System.makers s.uploads i).held at hheld
    cases hu : s.uploads[i]? with
    | none =>
      rw [System.makers, hu] at hheld
      cases hheld
    | some u =>
      have hmem := List.mem_of_getElem? hu
      rw [System.makers_eq hu] at hheld
      cases u with
      | writer w =>
        have hnone := WriterBlocks.Writer.WF.held_of_done (h.uploads _ hmem) (hq.uploads _ hmem)
        rw [Upload.maker, hnone] at hheld
        cases hheld
      | job f j =>
        rw [Upload.maker, Job.held_of_done (hq.uploads _ hmem)] at hheld
        cases hheld
  · change id ∈ s.aborts at hgone
    rw [hq.aborts] at hgone
    cases hgone

/-- In tidy runs, however their operations are interleaved, no block is left behind. -/
theorem noOrphans_of_tidy (ring : Mapper) (a : AlayaEnv) (term : UInt64) (pgs : List UInt64)
    (actions : List Action) (s : System)
    (hg : Meets (step ring a) (Tidy ring) (start term pgs) actions)
    (hr : run (step ring a) (start term pgs) actions = some s) (hq : Quiescent s) :
    NoOrphans s := by
  have hsound : s.Sound :=
    run_invariant (fun _ _ _ h hg hs => h.step hg hs) (sound_start term pgs) hg hr
  exact hsound.noOrphans hq

/-- Writes an object with one block, as upload number `i`. -/
def put (i : ℕ) (key : Bytes) (id : UInt8) : List Action :=
  [.getEcosWriter oneBucket key, .getCurBlock i, .commitCurBlock i (blockOf id), .close i,
    .createFile i [id], .uploadBlock i (blockOf id), .receive i (blockOf id),
    .commitMeta i (metaOf id)]

def partFactory : Factory :=
  { hashing with ring := oneRing, genBlockId := fun i => [UInt8.ofNat (10 + i)] }

def oneRead : Reader := ⟨[], [7], none⟩

/-- Writes part 1 of upload number `i`, which becomes its block number `h`. -/
def part (i h : ℕ) : List Action :=
  [.writePart i 1 oneRead, .createFile i [UInt8.ofNat (10 + h)], .uploadPart i h]

/-- Writes `k`, copies it to `l` and deletes both. The second clean-up finds nothing. -/
def deletedBoth : List Action :=
  (put 0 [107] 1).append
    [.lookUpSource (objectId [107]), .copy oneBucket [108] 0, .lookUpDeleted (objectId [107]),
      .delete 0, .lookUpDeleted (objectId [108]), .delete 0, .removeBlock 1, .removeBlock 0,
      .removeBlock 0]

def abortedWriter : List Action :=
  [.getEcosWriter oneBucket [107], .getCurBlock 0, .commitCurBlock 0 (blockOf 1), .abort 0,
    .createFile 0 [1], .uploadBlock 0 (blockOf 1), .receive 0 (blockOf 1), .abortBlock 0]

def replacedPart : List Action :=
  .createMultipartUploadJob partFactory [107] :: (part 0 0 ++ part 0 1).append
    [.abortBlock 0, .completeMultipartUploadJob 0 .completeMultipartUploadJob [1],
      .receivePart 0 0, .receivePart 0 1, .commitPartialMeta 0]

def EndsWith (actions : List Action) (gaia : List Bytes) (s : System) : Prop :=
  run (step oneRing oneEnv) (start 1 [1]) actions = some s ∧ s.gaia = gaia ∧ Quiescent s

theorem exists_endsWith {actions : List Action} {gaia : List Bytes}
    (h : (run (step oneRing oneEnv) (start 1 [1]) actions).map
      (fun s => decide (s.gaia = gaia ∧ Quiescent s)) = some true) :
    ∃ s, EndsWith actions gaia s := by
  obtain ⟨s, hs, hend⟩ := Option.map_eq_some_iff.mp h
  exact ⟨s, hs, of_decide_eq_true hend⟩

/-- Only the block of the completed upload is left, and it is listed. -/
theorem noOrphans_tidyRuns :
    (∃ s, EndsWith deletedBoth [] s ∧ NoOrphans s) ∧
      (∃ s, EndsWith abortedWriter [] s ∧ NoOrphans s) ∧
      ∃ s, EndsWith replacedPart [[11]] s ∧ NoOrphans s := by
  have hdeleted : ∃ s, EndsWith deletedBoth [] s := exists_endsWith (by decide +kernel)
  have haborted : ∃ s, EndsWith abortedWriter [] s := exists_endsWith (by decide +kernel)
  have hreplaced : ∃ s, EndsWith replacedPart [[11]] s := exists_endsWith (by decide +kernel)
  refine ⟨?_, ?_, ?_⟩
  · obtain ⟨s, hs, hend⟩ := hdeleted
    exact ⟨s, ⟨hs, hend⟩, noOrphans_of_tidy _ _ _ _ _ s (by decide +kernel) hs hend.2⟩
  · obtain ⟨s, hs, hend⟩ := haborted
    exact ⟨s, ⟨hs, hend⟩, noOrphans_of_tidy _ _ _ _ _ s (by decide +kernel) hs hend.2⟩
  · obtain ⟨s, hs, hend⟩ := hreplaced
    exact ⟨s, ⟨hs, hend⟩, noOrphans_of_tidy _ _ _ _ _ s (by decide +kernel) hs hend.2⟩

/-- The run ends with nothing in progress and a block that no meta lists. -/
def Leaves (actions : List Action) : Prop :=
  ∃ s, run (step oneRing oneEnv) (start 1 [1]) actions = some s ∧ Quiescent s ∧ ¬NoOrphans s

theorem leaves_of_map {actions : List Action}
    (h : (run (step oneRing oneEnv) (start 1 [1]) actions).map
      (fun s => decide (Quiescent s ∧ ¬NoOrphans s)) = some true) : Leaves actions := by
  obtain ⟨s, hs, hend⟩ := Option.map_eq_some_iff.mp h
  exact ⟨s, hs, of_decide_eq_true hend⟩

/-- Writes `k` twice. -/
def overwritten : List Action := put 0 [107] 1 ++ put 1 [107] 2

def abortedJob : List Action :=
  .createMultipartUploadJob partFactory [107] :: (part 0 0).append [.abortMultipartUploadJob 0]

/-- Writes `k` again while it is being deleted. -/
def overtaken : List Action :=
  (put 0 [107] 1).append (.lookUpDeleted (objectId [107]) ::
    (put 1 [107] 2).append [.delete 0, .removeBlock 0, .removeBlock 0])

/-- Completes a multipart upload by the gateway, and deletes the object before the part is
uploaded. -/
def deletedEarly : List Action :=
  [.createMultipartUploadJob partFactory [107], .writePart 0 1 oneRead,
    .completeMultipartUploadJob 0 .completeMultipartUpload [1], .commitPartialMeta 0,
    .lookUpDeleted (objectId [107]), .delete 0, .removeBlock 0, .createFile 0 [10],
    .uploadPart 0 0]

/-- Each condition of tidy runs is needed. -/
theorem untidy_runs_leave_blocks :
    Leaves overwritten ∧ Leaves abortedJob ∧ Leaves overtaken ∧ Leaves deletedEarly :=
  ⟨leaves_of_map (by decide +kernel), leaves_of_map (by decide +kernel),
    leaves_of_map (by decide +kernel), leaves_of_map (by decide +kernel)⟩

end Ecos.OrphanedBlocks
