import Ecos.Alaya.Service
import Ecos.Client.Upload
import Ecos.Logic.Machine

namespace Ecos.BlockReferences
open Go Logic Std Alaya

structure System where
  /-- term of the current cluster info -/
  term : UInt64
  register : Register
  /-- the blocks stored by Gaia -/
  gaia : ByteMap Bytes := ∅
  /-- the writers that have not been closed: the blocks whose upload has ended, and whether it
  has succeeded -/
  writers : List (List (BlockInfo × Bool)) := []
  /-- metas that `copyObject` has looked up and not yet written -/
  copies : List ObjectMeta := []
  /-- metas that `DeleteMeta` has looked up and not yet deleted -/
  deletes : List ObjectMeta := []
  /-- what the goroutines of `RemoveObjectBlocks` have still to remove -/
  cleanups : List (List BlockInfo) := []

inductive Action where
  | newTerm (term : UInt64)
  | newWriter
  /-- a writer uploads a block. Its ID is new, or the hash of its content -/
  | upload (i : ℕ) (info : BlockInfo) (content : Bytes)
  /-- the upload of a block fails, and `Upload` hands it to `finishedBlocks` all the same -/
  | failUpload (i : ℕ) (info : BlockInfo)
  /-- a writer is closed; the meta is given up to its ID and group -/
  | close (i : ℕ) (bucketInfo : BucketInfo) (key : Bytes) (objectMeta : ObjectMeta)
  | lookUpSource (objID : Bytes)
  | copy (bucketInfo : BucketInfo) (key : Bytes) (i : ℕ)
  | lookUpDeleted (objID : Bytes)
  | delete (i : ℕ)
  /-- `RemoveBlock` on the next block of a clean-up: whether the block is gone afterwards and
  whether nil was returned -/
  | removeBlock (i : ℕ) (gone ok : Bool)

section
variable (ring : Mapper) (a : AlayaEnv)

/-- The meta under a key of a bucket, as `genMeta` and `Copy` address it. -/
def addressed (bucketInfo : BucketInfo) (key : Bytes) (m : ObjectMeta) : ObjectMeta :=
  { m with
    objId := genObjectId ring bucketInfo key
    pgId := genObjPgID ring bucketInfo key 10 }

/-- A closed writer submits a meta that is addressed in this way. -/
theorem addressed_genMeta {f : Client.Factory} {w : Client.EcosWriter} {m : ObjectMeta}
    (h : Client.genMeta f w = some m) : addressed f.ring f.bucketInfo w.key m = m := by
  unfold Client.genMeta at h
  simp only [Option.bind_eq_bind, Option.bind_eq_some_iff] at h
  obtain ⟨blocks, -, heq⟩ := h
  cases heq
  rfl

def blockIds (blocks : List BlockInfo) : List Bytes := blocks.map BlockInfo.blockId

def step (s : System) : Action → Option System
  | .newTerm term => some { s with term := term }
  | .newWriter => some { s with writers := s.writers ++ [[]] }
  | .upload i info content => do
    let w ← s.writers[i]?
    return { s with
      gaia := s.gaia.insert info.blockId content
      writers := s.writers.set i ((info, true) :: w) }
  | .failUpload i info => do
    let w ← s.writers[i]?
    return { s with writers := s.writers.set i ((info, false) :: w) }
  | .close i bucketInfo key m => do
    let w ← s.writers[i]?
    -- `Close` waits until each of its blocks has ended, however it has
    if ∀ b ∈ m.blocks, b ∈ w.map Prod.fst then do
      let register ← (recordObjectMeta ring a s.register s.term s.term
        (addressed ring bucketInfo key m)).toOption
      return { s with register := register, writers := s.writers.eraseIdx i }
    else none
  | .lookUpSource objID => do
    let m ← (getObjectMeta ring a s.register s.term s.term objID).toOption
    return { s with copies := m :: s.copies }
  | .copy bucketInfo key i => do
    let m ← s.copies[i]?
    let register ← (recordObjectMeta ring a s.register s.term s.term
      (addressed ring bucketInfo key m)).toOption
    return { s with register := register, copies := s.copies.eraseIdx i }
  | .lookUpDeleted objID => do
    let m ← (getObjectMeta ring a s.register s.term s.term objID).toOption
    return { s with deletes := m :: s.deletes }
  | .delete i => do
    let m ← s.deletes[i]?
    let register ← (deleteMeta s.register m).toOption
    return { s with
      register := register
      deletes := s.deletes.eraseIdx i
      cleanups := m.blocks :: s.cleanups }
  | .removeBlock i gone ok =>
    match s.cleanups[i]? with
    | some (b :: rest) =>
      some { s with
        gaia := if gone then s.gaia.erase b.blockId else s.gaia
        cleanups := s.cleanups.set i (if ok then rest else []) }
    | _ => none

def NoDangling (s : System) : Prop :=
  ∀ clientTerm objID m, getObjectMeta ring a s.register s.term clientTerm objID = .ok m →
    ∀ b ∈ m.blocks, s.gaia[b.blockId]? ≠ none

end

def NoCommonBlock (m m' : ObjectMeta) : Prop := ∀ id ∈ blockIds m.blocks, id ∉ blockIds m'.blocks

instance (m m' : ObjectMeta) : Decidable (NoCommonBlock m m') :=
  inferInstanceAs (Decidable (∀ id ∈ blockIds m.blocks, id ∉ blockIds m'.blocks))

def Uploaded (s : System) (id : Bytes) : Prop :=
  ∃ w ∈ s.writers, ∃ b ∈ w, b.2 = true ∧ b.1.blockId = id

instance (s : System) (id : Bytes) : Decidable (Uploaded s id) :=
  inferInstanceAs (Decidable (∃ w ∈ s.writers, ∃ b ∈ w, b.2 = true ∧ b.1.blockId = id))

def Doomed (s : System) (id : Bytes) : Prop := ∃ c ∈ s.cleanups, id ∈ blockIds c

instance (s : System) (id : Bytes) : Decidable (Doomed s id) :=
  inferInstanceAs (Decidable (∃ c ∈ s.cleanups, id ∈ blockIds c))

/-- All uploads of a writer that is closed have succeeded. A deletion shares no block with a meta
under another key, with a copy under way or with an open writer, and no block is uploaded again
before its clean-up. -/
def Careful (s : System) : Action → Prop
  | .upload _ info _ => ¬Doomed s info.blockId
  | .close i _ _ _ => ∀ w ∈ s.writers[i]?, ∀ b ∈ w, b.2 = true
  | .delete i => ∀ m ∈ s.deletes[i]?,
    (∀ e ∈ recorded s.register, (e.1, e.2.1) ≠ (m.pgId, m.objId) → NoCommonBlock m e.2.2) ∧
      (∀ m' ∈ s.copies, NoCommonBlock m m') ∧ ∀ id ∈ blockIds m.blocks, ¬Uploaded s id
  | _ => True

instance (s : System) : ∀ action, Decidable (Careful s action)
  | .upload _ info _ => inferInstanceAs (Decidable (¬Doomed s info.blockId))
  | .close i _ _ _ => inferInstanceAs (Decidable (∀ w ∈ s.writers[i]?, ∀ b ∈ w, b.2 = true))
  | .delete i => inferInstanceAs (Decidable (∀ m ∈ s.deletes[i]?,
    (∀ e ∈ recorded s.register, (e.1, e.2.1) ≠ (m.pgId, m.objId) → NoCommonBlock m e.2.2) ∧
      (∀ m' ∈ s.copies, NoCommonBlock m m') ∧ ∀ id ∈ blockIds m.blocks, ¬Uploaded s id))
  | .newTerm _ | .newWriter | .failUpload _ _ | .lookUpSource _ | .copy _ _ _ | .lookUpDeleted _
  | .removeBlock _ _ _ => isTrue trivial

def Listed (s : System) (id : Bytes) : Prop :=
  (∃ e ∈ recorded s.register, id ∈ blockIds e.2.2.blocks) ∨
    ∃ m ∈ s.copies, id ∈ blockIds m.blocks

/-- What is listed, or uploaded and going to be listed, is stored and stays so. -/
def Sound (s : System) : Prop :=
  ∀ id, Listed s id ∨ Uploaded s id → s.gaia[id]? ≠ none ∧ ¬Doomed s id

variable {ring : Mapper} {a : AlayaEnv} {s s' : System}

/-- A step that adds no block and removes none. -/
theorem Sound.of_listed (h : Sound s) (hgaia : s'.gaia = s.gaia)
    (hcleanups : s'.cleanups = s.cleanups)
    (hlisted : ∀ id, Listed s' id ∨ Uploaded s' id → Listed s id ∨ Uploaded s id) : Sound s' := by
  intro id hid
  have hdoomed : Doomed s' id ↔ Doomed s id := by rw [Doomed, Doomed, hcleanups]
  rw [hgaia, hdoomed]
  exact h id (hlisted id hid)

theorem Sound.newWriter (h : Sound s) : Sound { s with writers := s.writers ++ [[]] } := by
  refine h.of_listed rfl rfl fun id hid => hid.imp_right ?_
  rintro ⟨w, hw, b, hb, hid⟩
  rcases List.mem_append.mp hw with hw | hw
  · exact ⟨w, hw, b, hb, hid⟩
  · rw [List.mem_singleton.mp hw] at hb
    cases hb

theorem Sound.upload (h : Sound s) {i : ℕ} {info : BlockInfo} {w : List (BlockInfo × Bool)}
    (hw : s.writers[i]? = some w) (hdoomed : ¬Doomed s info.blockId) (content : Bytes) :
    Sound { s with
      gaia := s.gaia.insert info.blockId content
      writers := s.writers.set i ((info, true) :: w) } := by
  intro id hid
  rw [ExtTreeMap.getElem?_insert]
  simp only [LawfulEqCmp.compare_eq_iff_eq]
  by_cases heq : info.blockId = id
  · rw [if_pos heq]
    exact ⟨by simp, heq ▸ hdoomed⟩
  · rw [if_neg heq]
    refine h id (hid.imp_right ?_)
    rintro ⟨w', hw', b, hb, hok, hid⟩
    rcases List.mem_or_eq_of_mem_set hw' with hw' | rfl
    · exact ⟨w', hw', b, hb, hok, hid⟩
    · rcases List.mem_cons.mp hb with rfl | hb
      · exact absurd hid heq
      · exact ⟨w, List.mem_of_getElem? hw, b, hb, hok, hid⟩

theorem Sound.failUpload (h : Sound s) {i : ℕ} {w : List (BlockInfo × Bool)}
    (hw : s.writers[i]? = some w) (info : BlockInfo) :
    Sound { s with writers := s.writers.set i ((info, false) :: w) } := by
  refine h.of_listed rfl rfl fun id hid => hid.imp_right ?_
  rintro ⟨w', hw', b, hb, hok, hid⟩
  rcases List.mem_or_eq_of_mem_set hw' with hw' | rfl
  · exact ⟨w', hw', b, hb, hok, hid⟩
  · rcases List.mem_cons.mp hb with rfl | hb
    · cases hok
    · exact ⟨w, List.mem_of_getElem? hw, b, hb, hok, hid⟩

/-- The blocks of a closed writer are listed by the recorded meta. -/
theorem Sound.close (h : Sound s) {i : ℕ} {w : List (BlockInfo × Bool)}
    (hw : s.writers[i]? = some w) (hall : ∀ b ∈ w, b.2 = true) {m : ObjectMeta}
    (hm : ∀ b ∈ m.blocks, b ∈ w.map Prod.fst) {register : Register}
    (hr : ∀ e ∈ recorded register, e.2.2.blocks = m.blocks ∨ e ∈ recorded s.register) :
    Sound { s with register := register, writers := s.writers.eraseIdx i } := by
  have huploaded : ∀ id ∈ blockIds m.blocks, Uploaded s id := by
    intro id hid
    obtain ⟨b, hb, rfl⟩ := List.mem_map.mp hid
    obtain ⟨b', hb', rfl⟩ := List.mem_map.mp (hm b hb)
    exact ⟨w, List.mem_of_getElem? hw, b', hb', hall b' hb', rfl⟩
  refine h.of_listed rfl rfl ?_
  rintro id ((⟨e, he, hid⟩ | hid) | ⟨w', hw', hid⟩)
  · rcases hr e he with hb | he
    · exact .inr (huploaded id (hb ▸ hid))
    · exact .inl (.inl ⟨e, he, hid⟩)
  · exact .inl (.inr hid)
  · exact .inr ⟨w', List.mem_of_mem_eraseIdx hw', hid⟩

/-- The only step that dooms blocks. The guard says that nothing else needs them. -/
theorem Sound.delete (h : Sound s) {i : ℕ} {m : ObjectMeta} (hm : s.deletes[i]? = some m)
    (hg : Careful s (.delete i)) {register : Register}
    (hr : deleteMeta s.register m = .ok register) :
    Sound { s with
      register := register
      deletes := s.deletes.eraseIdx i
      cleanups := m.blocks :: s.cleanups } := by
  obtain ⟨hothers, hcopies, hwriters⟩ := hg m hm
  intro id hid
  have hkeep : (Listed s id ∨ Uploaded s id) ∧ id ∉ blockIds m.blocks := by
    rcases hid with (⟨⟨pg, k, m'⟩, he, hid⟩ | ⟨m', hm', hid⟩) | hid
    · obtain ⟨hne, hold⟩ := recorded_deleteMeta hr he
      exact ⟨.inl (.inl ⟨_, hold, hid⟩), fun hid' => hothers _ hold hne id hid' hid⟩
    · exact ⟨.inl (.inr ⟨m', hm', hid⟩), fun hid' => hcopies m' hm' id hid' hid⟩
    · exact ⟨.inr hid, fun hid' => hwriters id hid' hid⟩
  obtain ⟨hstored, hnot⟩ := h id hkeep.1
  refine ⟨hstored, ?_⟩
  rintro ⟨c, hc, hid'⟩
  rcases List.mem_cons.mp hc with rfl | hc
  · exact hkeep.2 hid'
  · exact hnot ⟨c, hc, hid'⟩

theorem Sound.removeBlock (h : Sound s) {i : ℕ} {b : BlockInfo} {rest : List BlockInfo}
    (hc : s.cleanups[i]? = some (b :: rest)) (gone ok : Bool) :
    Sound { s with
      gaia := if gone then s.gaia.erase b.blockId else s.gaia
      cleanups := s.cleanups.set i (if ok then rest else []) } := by
  intro id hid
  obtain ⟨hstored, hnot⟩ := h id hid
  have hne : b.blockId ≠ id := by
    rintro rfl
    exact hnot ⟨_, List.mem_of_getElem? hc, List.mem_cons_self⟩
  constructor
  · cases gone with
    | false => exact hstored
    | true =>
      simp only [if_true, ExtTreeMap.getElem?_erase, LawfulEqCmp.compare_eq_iff_eq]
      rwa [if_neg hne]
  · rintro ⟨c, hmem, hid'⟩
    rcases List.mem_or_eq_of_mem_set hmem with hmem | rfl
    · exact hnot ⟨c, hmem, hid'⟩
    · refine hnot ⟨b :: rest, List.mem_of_getElem? hc, ?_⟩
      cases ok with
      | true => exact List.mem_cons_of_mem _ hid'
      | false => cases hid'

theorem Sound.copies_cons (h : Sound s) {m : ObjectMeta} (hm : ∃ e ∈ recorded s.register, e.2.2 = m) :
    Sound { s with copies := m :: s.copies } := by
  obtain ⟨e, he, rfl⟩ := hm
  refine h.of_listed rfl rfl fun id hid => hid.imp_left ?_
  rintro (hid | ⟨m', hm', hid⟩)
  · exact .inl hid
  · rcases List.mem_cons.mp hm' with rfl | hm'
    · exact .inl ⟨e, he, hid⟩
    · exact .inr ⟨m', hm', hid⟩

theorem Sound.copy (h : Sound s) {i : ℕ} {m : ObjectMeta} (hm : s.copies[i]? = some m)
    {register : Register} (hr : ∀ e ∈ recorded register,
      e.2.2.blocks = m.blocks ∨ e ∈ recorded s.register) :
    Sound { s with register := register, copies := s.copies.eraseIdx i } := by
  refine h.of_listed rfl rfl fun id hid => hid.imp_left ?_
  rintro (⟨e, he, hid⟩ | ⟨m', hm', hid⟩)
  · rcases hr e he with hb | he
    · exact .inr ⟨m, List.mem_of_getElem? hm, hb ▸ hid⟩
    · exact .inl ⟨e, he, hid⟩
  · exact .inr ⟨m', List.mem_of_mem_eraseIdx hm', hid⟩

theorem Sound.step (h : Sound s) {action : Action} (hg : Careful s action)
    (hs : step ring a s action = some s') : Sound s' := by
  cases action with
  | newTerm term =>
    cases hs
    exact h
  | newWriter =>
    cases hs
    exact h.newWriter
  | upload i info content =>
    simp only [BlockReferences.step, Option.bind_eq_bind, Option.bind_eq_some_iff] at hs
    obtain ⟨w, hw, heq⟩ := hs
    cases heq
    exact h.upload hw hg content
  | failUpload i info =>
    simp only [BlockReferences.step, Option.bind_eq_bind, Option.bind_eq_some_iff] at hs
    obtain ⟨w, hw, heq⟩ := hs
    cases heq
    exact h.failUpload hw info
  | close i bucketInfo key m =>
    simp only [BlockReferences.step, Option.bind_eq_bind, Option.bind_eq_some_iff] at hs
    obtain ⟨w, hw, hs⟩ := hs
    split_ifs at hs with hm
    obtain ⟨register, hr, heq⟩ := Option.bind_eq_some_iff.mp hs
    cases heq
    exact h.close hw (hg w hw) hm fun e he => recorded_recordObjectMeta (toOption_eq_some hr) he
  | lookUpSource objID =>
    simp only [BlockReferences.step, Option.bind_eq_bind, Option.bind_eq_some_iff] at hs
    obtain ⟨m, hm, heq⟩ := hs
    cases heq
    exact h.copies_cons (recorded_of_getObjectMeta ring a (toOption_eq_some hm))
  | copy bucketInfo key i =>
    simp only [BlockReferences.step, Option.bind_eq_bind, Option.bind_eq_some_iff] at hs
    obtain ⟨m, hm, register, hr, heq⟩ := hs
    cases heq
    exact h.copy hm fun e he => recorded_recordObjectMeta (toOption_eq_some hr) he
  | lookUpDeleted objID =>
    simp only [BlockReferences.step, Option.bind_eq_bind, Option.bind_eq_some_iff] at hs
    obtain ⟨m, hm, heq⟩ := hs
    cases heq
    exact h
  | delete i =>
    simp only [BlockReferences.step, Option.bind_eq_bind, Option.bind_eq_some_iff] at hs
    obtain ⟨m, hm, register, hr, heq⟩ := hs
    cases heq
    exact h.delete hm hg (toOption_eq_some hr)
  | removeBlock i gone ok =>
    unfold BlockReferences.step at hs
    dsimp only at hs
    split at hs
    · rename_i b rest hc
      cases hs
      exact h.removeBlock hc gone ok
    · cases hs

def start (term : UInt64) (pgs : List UInt64) : System where
  term := term
  register := pgs.foldl (fun r pg => r.insert pg MemoryMetaStorage.empty) ∅

theorem start_register {term : UInt64} {pgs : List UInt64} {pg : UInt64}
    {storage : MemoryMetaStorage} (h : (start term pgs).register[pg]? = some storage) :
    storage = MemoryMetaStorage.empty := by
  -- the claim for any register that already has only empty storages
  suffices hall : ∀ r : Register, (∀ st, r[pg]? = some st → st = MemoryMetaStorage.empty) →
      (pgs.foldl (fun r pg => r.insert pg MemoryMetaStorage.empty) r)[pg]? = some storage →
      storage = MemoryMetaStorage.empty from
    hall ∅ (by simp) h
  clear h
  induction pgs with
  | nil => exact fun r hr hs => hr storage hs
  | cons p pgs ih =>
    intro r hr hs
    refine ih (r.insert p MemoryMetaStorage.empty) ?_ hs
    intro st hst
    rw [ExtTreeMap.getElem?_insert] at hst
    split_ifs at hst
    · cases hst
      rfl
    · exact hr st hst

theorem sound_start (term : UInt64) (pgs : List UInt64) : Sound (start term pgs) := by
  rintro id ((⟨⟨pg, k, m⟩, he, -⟩ | ⟨m, hm, -⟩) | ⟨w, hw, -⟩)
  · obtain ⟨storage, hs, hk⟩ := mem_recorded.mp he
    rw [start_register hs] at hk
    simp [MemoryMetaStorage.empty] at hk
  · cases hm
  · cases hw

theorem Sound.noDangling (h : Sound s) : NoDangling ring a s := by
  intro clientTerm objID m hm b hb
  obtain ⟨e, he, rfl⟩ := recorded_of_getObjectMeta ring a hm
  exact (h b.blockId (.inl (.inl ⟨e, he, List.mem_map_of_mem hb⟩))).1

/-- While all uploads of closed writers succeed and no deletion takes a block that is still needed,
no interleaving of writes, copies, deletions and clean-ups leaves a meta with a missing block. -/
theorem noDangling_of_careful (ring : Mapper) (a : AlayaEnv) (term : UInt64) (pgs : List UInt64)
    (actions : List Action) (s : System)
    (hg : Meets (step ring a) Careful (start term pgs) actions)
    (hr : run (step ring a) (start term pgs) actions = some s) : NoDangling ring a s := by
  have hsound : Sound s :=
    run_invariant (fun _ _ _ h hg hs => h.step hg hs) (sound_start term pgs) hg hr
  exact hsound.noDangling

def oneRing : Mapper := fun _ _ => 1

def oneBucket : BucketInfo := ⟨[118], [98], [], { keySlotNum := 1, blockSize := 2 }⟩

def oneEnv : AlayaEnv := ⟨fun _ => some oneBucket, fun _ => some 10⟩

def blockOf (id : UInt8) : BlockInfo := { blockId := [id], blockSize := 1 }

def metaOf (id : UInt8) : ObjectMeta :=
  { objId := [], objSize := 1, pgId := 0, blocks := [blockOf id], term := 1 }

def objectId (key : Bytes) : Bytes := genObjectId oneRing oneBucket key

def put (key : Bytes) (id : UInt8) : List Action :=
  [.newWriter, .upload 0 (blockOf id) [7], .close 0 oneBucket key (metaOf id)]

/-- Writes `k`, copies it to `l`, and deletes `k`. -/
def deletedSource : List Action :=
  put [107] 1 ++ [.lookUpSource (objectId [107]), .copy oneBucket [108] 0,
    .lookUpDeleted (objectId [107]), .delete 0, .removeBlock 0 true true]

/-- Writes `k`, copies it to `l`, writes `l` again, and deletes `k`. -/
def rewrittenCopy : List Action :=
  put [107] 1 ++ [.lookUpSource (objectId [107]), .copy oneBucket [108] 0] ++ put [108] 2 ++
    [.lookUpDeleted (objectId [107]), .delete 0, .removeBlock 0 true true]

/-- The block of `k` is never stored. -/
def failedUpload : List Action :=
  [.newWriter, .failUpload 0 (blockOf 1), .close 0 oneBucket [107] (metaOf 1)]

theorem noDangling_rewrittenCopy :
    ∃ s, run (step oneRing oneEnv) (start 1 [1]) rewrittenCopy = some s ∧
      s.gaia[(blockOf 1).blockId]? = none ∧ NoDangling oneRing oneEnv s := by
  have hgaia : (run (step oneRing oneEnv) (start 1 [1]) rewrittenCopy).map
      (fun s => s.gaia[(blockOf 1).blockId]?) = some none := by decide +kernel
  obtain ⟨s, hs, hnone⟩ := Option.map_eq_some_iff.mp hgaia
  exact ⟨s, hs, hnone, noDangling_of_careful oneRing oneEnv 1 [1] rewrittenCopy s
    (by decide +kernel) hs⟩

theorem dangling_of_map {actions : List Action} {key : Bytes}
    (h : (run (step oneRing oneEnv) (start 1 [1]) actions).map
      (fun s => ((getObjectMeta oneRing oneEnv s.register s.term 1 (objectId key)).toOption.map
        ObjectMeta.blocks, s.gaia[(blockOf 1).blockId]?)) = some (some [blockOf 1], none)) :
    ∃ s, run (step oneRing oneEnv) (start 1 [1]) actions = some s ∧
      ¬NoDangling oneRing oneEnv s := by
  obtain ⟨s, hs, hpair⟩ := Option.map_eq_some_iff.mp h
  obtain ⟨hblocks, hgone⟩ := Prod.mk.inj hpair
  obtain ⟨m, hm, hb⟩ := Option.map_eq_some_iff.mp hblocks
  refine ⟨s, hs, fun hno => ?_⟩
  exact hno 1 (objectId key) m (toOption_eq_some hm) (blockOf 1) (by simp [hb]) hgone

/-- The copy under `l` still lists the block that the deletion of `k` has removed, and a meta
lists a block whose upload has failed. -/
theorem deletedSource_dangling :
    (∃ s, run (step oneRing oneEnv) (start 1 [1]) deletedSource = some s ∧
      ¬NoDangling oneRing oneEnv s) ∧
    ∃ s, run (step oneRing oneEnv) (start 1 [1]) failedUpload = some s ∧
      ¬NoDangling oneRing oneEnv s :=
  ⟨@dangling_of_map deletedSource [108] (by decide +kernel),
    @dangling_of_map failedUpload [107] (by decide +kernel)⟩

end Ecos.BlockReferences
