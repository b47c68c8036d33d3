import Ecos.Alaya.Recovery
import Ecos.Alaya.Service
import Ecos.Go.Idutil
import Ecos.Logic.Machine

namespace Ecos.Alaya
open Go Logic Std

structure StorageCall where
  /-- whether `Marshal` of the meta succeeds -/
  marshalled : Bool := true
  /-- the error of `PutCF` or `DeleteCF` -/
  write : Option Errno := none
  deriving DecidableEq, Repr

/-- What `Marshal` returns, next to an error that is not looked at. -/
def StorageCall.value (marshal : ObjectMeta → Bytes) (call : StorageCall) (m : ObjectMeta) :
    Bytes :=
  if call.marshalled then marshal m else []

def StorageCall.Writes (marshal : ObjectMeta → Bytes) (call : StorageCall) (o : MetaOperate) :
    Prop :=
  call.write = none ∧
    (o.operate = .PUT → call.value marshal o.objectMeta = marshal o.objectMeta)

instance (marshal : ObjectMeta → Bytes) (call : StorageCall) (o : MetaOperate) :
    Decidable (call.Writes marshal o) :=
  inferInstanceAs (Decidable (_ ∧ _))

namespace RocksDBMetaStorage
variable (marshal : ObjectMeta → Bytes)

/-- `RecordMeta`, where the error of `PutCF` replaces that of `Marshal`. -/
def recordMetaCall (s : RocksDBMetaStorage) (m : ObjectMeta) (call : StorageCall) :
    RocksDBMetaStorage × Option Errno :=
  match call.write with
  | some e => (s, some e)
  | none => (s.recordMeta (call.value marshal) m, none)

def deleteCall (s : RocksDBMetaStorage) (objID : Bytes) (call : StorageCall) :
    RocksDBMetaStorage × Option Errno :=
  match call.write with
  | some e => (s, some e)
  | none => (s.delete objID, none)

/-- The switch of `readCommit`, with the error it logs. -/
def operateCall (s : RocksDBMetaStorage) (o : MetaOperate) (call : StorageCall) :
    RocksDBMetaStorage × Option Errno :=
  match o.operate with
  | .PUT => s.recordMetaCall marshal o.objectMeta call
  | .DELETE => s.deleteCall o.objectMeta.objId call

def getMeta (unmarshal : Bytes → Except Errno ObjectMeta) (s : RocksDBMetaStorage)
    (objID : Bytes) : Except Errno ObjectMeta :=
  match s.lookup objID with
  | none => .error .metaNotExist
  | some value => unmarshal value

end RocksDBMetaStorage

/-- A call that waits in `ProposeObjectMetaOperate`. -/
structure Pending where
  operate : MetaOperate
  /-- `syncToCloud` -/
  sync : Bool
  deriving DecidableEq, Repr

/-- A call whose ID was triggered, with the entry that had this ID and the storage call made for
it. -/
structure Released where
  pending : Pending
  entry : MetaOperate
  before : RocksDBMetaStorage
  call : StorageCall

/-- A call that has returned, with `Result_OK` or an error. -/
structure Answered where
  released : Released
  result : Except Errno Unit

structure MetaNode where
  pgID : UInt64
  reqIDGen : Idutil.Generator
  storage : RocksDBMetaStorage := .empty
  /-- the calls that are registered in `w` -/
  waiting : List Pending := []
  released : List Released := []
  answers : List Answered := []
  /-- the errors of calls that did not come to a proposal -/
  refused : List Errno := []

inductive MetaAction where
  /-- `RecordObjectMeta` up to the point where it waits -/
  | record (current clientTerm : UInt64) (m : ObjectMeta) (sync : Bool)
  /-- `DeleteMeta` up to the point where it waits -/
  | delete (current clientTerm : UInt64) (objID : Bytes)
  /-- a batch in `readCommit` -/
  | commit (batch : List (MetaOperate × StorageCall))
  /-- the rest of a call whose ID was triggered, and whether the cloud answers with success -/
  | finish (i : ℕ) (cloud : Bool)

namespace MetaNode
variable (ring : Mapper) (a : AlayaEnv) (marshal : ObjectMeta → Bytes)
  (unmarshal : Bytes → Except Errno ObjectMeta)

def new (pgID : UInt64) (raftID : UInt16) (start : UInt64) : MetaNode where
  pgID := pgID
  reqIDGen := Idutil.newGenerator raftID start

/-- The checks of `RecordObjectMeta` with the operation it proposes. -/
def recordRequest (n : MetaNode) (current clientTerm : UInt64) (m : ObjectMeta) :
    Except Errno MetaOperate := do
  let term ← checkClientTerm current clientTerm
  let m ← checkObject ring a term m
  if m.pgId ≠ n.pgID then .error .raftNodeNotFound
  else .ok { operate := .PUT, objectMeta := m }

/-- The checks of `DeleteMeta` with the operation it proposes, on the meta that it finds. -/
def deleteRequest (n : MetaNode) (current clientTerm : UInt64) (objID : Bytes) :
    Except Errno MetaOperate := do
  let term ← checkClientTerm current clientTerm
  let objID := cleanObjectKey (cleanObjectKey objID)
  if calculateObjectPGID ring a term objID ≠ n.pgID then .error .metaStorageNotExist
  else
    let m ← n.storage.getMeta unmarshal objID
    if m.pgId ≠ n.pgID then .error .raftNodeNotFound
    else .ok { operate := .DELETE, objectMeta := m }

/-- `ProposeObjectMetaOperate` up to the point where it waits. `Register` panics where the ID is
registered already. -/
def propose (n : MetaNode) (o : MetaOperate) (sync : Bool) : Option MetaNode :=
  let (opID, reqIDGen) := n.reqIDGen.next
  if ∃ p ∈ n.waiting, p.operate.operateId = opID then none
  else some { n with
    reqIDGen
    waiting := n.waiting ++ [⟨{ o with operateId := opID }, sync⟩] }

def request (n : MetaNode) (sync : Bool) : Except Errno MetaOperate → Option MetaNode
  | .error e => some { n with refused := n.refused ++ [e] }
  | .ok o => n.propose o sync

/-- One entry in `readCommit`. A call with its ID is triggered, whatever the storage returned. -/
def readEntry (n : MetaNode) (entry : MetaOperate × StorageCall) : MetaNode :=
  let own := fun p : Pending => decide (p.operate.operateId = entry.1.operateId)
  { n with
    storage := (n.storage.operateCall marshal entry.1 entry.2).1
    waiting := n.waiting.filter fun p => !own p
    released := n.released ++ (n.waiting.filter own).map fun p => ⟨p, entry.1, n.storage, entry.2⟩ }

def readCommit (n : MetaNode) (batch : List (MetaOperate × StorageCall)) : MetaNode :=
  batch.foldl (readEntry marshal) n

def finish (r : Released) (cloud : Bool) : Answered where
  released := r
  result :=
    if r.pending.sync ∧ cloud = false then .error (.other "sync to cloud failed") else .ok ()

def step (n : MetaNode) : MetaAction → Option MetaNode
  | .record current clientTerm m sync =>
    n.request sync (n.recordRequest ring a current clientTerm m)
  | .delete current clientTerm objID =>
    n.request false (n.deleteRequest ring a unmarshal current clientTerm objID)
  | .commit batch => some (n.readCommit marshal batch)
  | .finish i cloud => do
    let r ← n.released[i]?
    return { n with
      released := n.released.eraseIdx i
      answers := n.answers ++ [finish r cloud] }

end MetaNode

namespace Released
variable (marshal : ObjectMeta → Bytes) (r : Released)

def after : RocksDBMetaStorage := (r.before.operateCall marshal r.entry r.call).1

def err : Option Errno := (r.before.operateCall marshal r.entry r.call).2

def Effective : Prop :=
  (r.after marshal).lookup r.pending.operate.objectMeta.objId =
    match r.pending.operate.operate with
    | .PUT => some (marshal r.pending.operate.objectMeta)
    | .DELETE => none

theorem writes_iff (h : r.entry = r.pending.operate) :
    r.call.Writes marshal r.pending.operate ↔ r.Effective marshal ∧ r.err marshal = none := by
  obtain ⟨⟨⟨opID, operate, m⟩, sync⟩, entry, before, ⟨marshalled, write⟩⟩ := r
  cases h
  cases operate <;> cases write <;>
    simp [StorageCall.Writes, Effective, err, after, RocksDBMetaStorage.operateCall,
      RocksDBMetaStorage.recordMetaCall, RocksDBMetaStorage.deleteCall,
      RocksDBMetaStorage.recordMeta, RocksDBMetaStorage.delete, RocksDBMetaStorage.lookup]

end Released

/-- A call returns `Result_OK` only for an effect, and an error of the storage as an error. -/
def Answered.Faithful (marshal : ObjectMeta → Bytes) (x : Answered) : Prop :=
  (x.result = .ok () → x.released.Effective marshal) ∧
    (x.released.err marshal ≠ none → x.result ≠ .ok ())

namespace MetaNode
variable {ring : Mapper} {a : AlayaEnv} {marshal : ObjectMeta → Bytes}
  {unmarshal : Bytes → Except Errno ObjectMeta} {n n' : MetaNode}

def Faithful (marshal : ObjectMeta → Bytes) (n : MetaNode) : Prop :=
  ∀ x ∈ n.answers, x.Faithful marshal

/-- Raft delivers what was proposed, and other nodes use other IDs: an entry with the ID of a call
that waits is the operation of that call. -/
def Owned (n : MetaNode) : MetaAction → Prop
  | .commit batch => ∀ entry ∈ batch, ∀ p ∈ n.waiting,
    p.operate.operateId = entry.1.operateId → p.operate = entry.1
  | _ => True

/-- A call that does not wait for the cloud, or that the cloud answers with success, has had a
storage call that wrote what its operation asks for. -/
def Sound (marshal : ObjectMeta → Bytes) (n : MetaNode) : MetaAction → Prop
  | .finish i cloud => ∀ r ∈ n.released[i]?,
    r.pending.sync = false ∨ cloud = true → r.call.Writes marshal r.pending.operate
  | _ => True

theorem finish_ok_iff (r : Released) (cloud : Bool) :
    (finish r cloud).result = .ok () ↔ r.pending.sync = false ∨ cloud = true := by
  unfold finish
  cases r.pending.sync <;> cases cloud <;> simp

theorem faithful_finish_iff {r : Released} (hr : r.entry = r.pending.operate) (cloud : Bool) :
    (finish r cloud).Faithful marshal ↔
      (r.pending.sync = false ∨ cloud = true → r.call.Writes marshal r.pending.operate) := by
  rw [Answered.Faithful, finish_ok_iff, r.writes_iff marshal hr, ne_eq, ne_eq, finish_ok_iff]
  show (_ → r.Effective marshal) ∧ (¬ r.err marshal = none → _) ↔ _
  tauto

/-- A request leaves the calls that were released or answered before. -/
theorem request_keeps {sync : Bool} {o : Except Errno MetaOperate}
    (h : n.request sync o = some n') :
    n'.answers = n.answers ∧ n'.released = n.released := by
  cases o with
  | error e =>
    cases h
    exact ⟨rfl, rfl⟩
  | ok o =>
    rw [request, propose] at h
    dsimp only at h
    split_ifs at h
    cases h
    exact ⟨rfl, rfl⟩

/-- What an entry does: the calls with its ID are released with it. -/
theorem mem_released_readEntry {entry : MetaOperate × StorageCall} {r : Released}
    (h : r ∈ (n.readEntry marshal entry).released) :
    r ∈ n.released ∨ r.pending ∈ n.waiting ∧
      r.pending.operate.operateId = entry.1.operateId ∧ r.entry = entry.1 ∧ r.call = entry.2 := by
  rcases List.mem_append.1 h with h | h
  · exact .inl h
  · obtain ⟨p, hp, rfl⟩ := List.mem_map.1 h
    obtain ⟨hmem, hid⟩ := List.mem_filter.1 hp
    exact .inr ⟨hmem, of_decide_eq_true hid, rfl, rfl⟩

theorem waiting_readEntry_subset (n : MetaNode) (entry : MetaOperate × StorageCall) :
    (n.readEntry marshal entry).waiting ⊆ n.waiting :=
  List.filter_sublist.subset

/-- What a batch does: the calls that are released were waiting, each for one of its entries. -/
theorem readCommit_spec (n : MetaNode) (batch : List (MetaOperate × StorageCall)) :
    (n.readCommit marshal batch).answers = n.answers ∧
      ∀ r ∈ (n.readCommit marshal batch).released, r ∈ n.released ∨
        ∃ entry ∈ batch, r.pending ∈ n.waiting ∧
          r.pending.operate.operateId = entry.1.operateId ∧ r.entry = entry.1 ∧
          r.call = entry.2 := by
  induction batch generalizing n with
  | nil => exact ⟨rfl, fun r hr => .inl hr⟩
  | cons entry batch ih =>
    obtain ⟨hanswers, hreleased⟩ := ih (n.readEntry marshal entry)
    refine ⟨hanswers, fun r hr => ?_⟩
    rcases hreleased r hr with hr | ⟨e, he, hwaits, hspec⟩
    · exact (mem_released_readEntry hr).imp_right fun h => ⟨entry, List.mem_cons_self, h⟩
    · exact .inr ⟨e, List.mem_cons_of_mem _ he, n.waiting_readEntry_subset entry hwaits, hspec⟩

def Matched (n : MetaNode) : Prop := ∀ r ∈ n.released, r.entry = r.pending.operate

theorem step_matched (n : MetaNode) (act : MetaAction) (n' : MetaNode) (hn : n.Matched)
    (hown : n.Owned act) (h : n.step ring a marshal unmarshal act = some n') : n'.Matched := by
  cases act with
  | record current clientTerm m sync => exact fun r hr => hn r ((request_keeps h).2 ▸ hr)
  | delete current clientTerm objID => exact fun r hr => hn r ((request_keeps h).2 ▸ hr)
  | commit batch =>
    cases h
    intro r hr
    rcases (n.readCommit_spec batch).2 r hr with hr | ⟨entry, hentry, hwaits, hid, heq, -⟩
    · exact hn r hr
    · rw [heq, hown entry hentry r.pending hwaits hid]
  | finish i cloud =>
    obtain ⟨r, hr, hn'⟩ := Option.bind_eq_some_iff.1 h
    cases hn'
    exact fun x hx => hn x (List.mem_of_mem_eraseIdx hx)

theorem step_faithful_iff (n : MetaNode) (act : MetaAction) (n' : MetaNode) (hn : n.Matched)
    (h : n.step ring a marshal unmarshal act = some n') :
    n'.Faithful marshal ↔ n.Faithful marshal ∧ n.Sound marshal act := by
  have hsame : n'.answers = n.answers → (n'.Faithful marshal ↔ n.Faithful marshal ∧ True) := by
    intro hanswers
    rw [Faithful, hanswers, and_true]
    exact Iff.rfl
  cases act with
  | record current clientTerm m sync => exact hsame (request_keeps h).1
  | delete current clientTerm objID => exact hsame (request_keeps h).1
  | commit batch =>
    cases h
    exact hsame (n.readCommit_spec batch).1
  | finish i cloud =>
    obtain ⟨r, hr, hn'⟩ := Option.bind_eq_some_iff.1 h
    cases hn'
    have hfinish := @faithful_finish_iff marshal _ (hn r (List.mem_of_getElem? hr)) cloud
    simp only [Faithful, Sound, hr, List.forall_mem_append, List.mem_singleton, forall_eq,
      hfinish, Option.mem_def, Option.some.injEq, forall_eq']

/-- Over every run the calls of a node are answered faithfully exactly when the storage has written
what the operation asks for, for every call that is not refused by the cloud at its end. -/
theorem faithful_iff_sound (ring : Mapper) (a : AlayaEnv) (marshal : ObjectMeta → Bytes)
    (unmarshal : Bytes → Except Errno ObjectMeta) (pgID : UInt64) (raftID : UInt16)
    (start : UInt64) (acts : List MetaAction) (n : MetaNode)
    (h : run (step ring a marshal unmarshal) (new pgID raftID start) acts = some n)
    (hown : Meets (step ring a marshal unmarshal) Owned (new pgID raftID start) acts) :
    n.Faithful marshal ↔
      Meets (step ring a marshal unmarshal) (Sound marshal) (new pgID raftID start) acts := by
  have hnew : (new pgID raftID start).Faithful marshal := fun x hx => (by cases hx)
  have hmatched : (new pgID raftID start).Matched := fun r hr => (by cases hr)
  rw [run_iff_meets_of step_matched (fun n act n' hn _ => step_faithful_iff n act n' hn) hmatched
    hown h, and_iff_right hnew]

def Undisturbed (marshal : ObjectMeta → Bytes) : MetaAction → Prop
  | .commit batch => ∀ entry ∈ batch, entry.2.Writes marshal entry.1
  | _ => True

/-- The entries of the calls that were released have been written. -/
def AllWritten (marshal : ObjectMeta → Bytes) (n : MetaNode) : Prop :=
  ∀ r ∈ n.released, r.call.Writes marshal r.entry

theorem step_allWritten (n : MetaNode) (act : MetaAction) (n' : MetaNode)
    (hn : n.AllWritten marshal) (hact : Undisturbed marshal act)
    (h : n.step ring a marshal unmarshal act = some n') : n'.AllWritten marshal := by
  cases act with
  | record current clientTerm m sync => exact fun r hr => hn r ((request_keeps h).2 ▸ hr)
  | delete current clientTerm objID => exact fun r hr => hn r ((request_keeps h).2 ▸ hr)
  | commit batch =>
    cases h
    intro r hr
    rcases (n.readCommit_spec batch).2 r hr with hr | ⟨entry, hentry, -, -, heq, hcall⟩
    · exact hn r hr
    · rw [heq, hcall]
      exact hact entry hentry
  | finish i cloud =>
    obtain ⟨r, hr, hn'⟩ := Option.bind_eq_some_iff.1 h
    cases hn'
    exact fun x hx => hn x (List.mem_of_mem_eraseIdx hx)

/-- Where the storage writes every entry, all calls are answered faithfully. -/
theorem faithful_of_undisturbed {pgID start : UInt64} {raftID : UInt16} {acts : List MetaAction}
    (hacts : ∀ act ∈ acts, Undisturbed marshal act)
    (hown : Meets (step ring a marshal unmarshal) Owned (new pgID raftID start) acts)
    (h : run (step ring a marshal unmarshal) (new pgID raftID start) acts = some n) :
    n.Faithful marshal := by
  have hnew : (new pgID raftID start).Faithful marshal ∧ (new pgID raftID start).Matched ∧
      (new pgID raftID start).AllWritten marshal :=
    ⟨fun x hx => (by cases hx), fun r hr => (by cases hr), fun r hr => (by cases hr)⟩
  have hboth : Meets (step ring a marshal unmarshal)
      (fun m act => m.Owned act ∧ Undisturbed marshal act) (new pgID raftID start) acts :=
    meets_and hown (meets_of_forall (fun act hact _ => hacts act hact) _)
  refine (run_invariant (I := fun m => m.Faithful marshal ∧ m.Matched ∧ m.AllWritten marshal)
    ?_ hnew hboth h).1
  rintro m act m' ⟨hfaithful, hmatched, hwritten⟩ ⟨hact, hact'⟩ hstep
  refine ⟨(step_faithful_iff m act m' hmatched hstep).2 ⟨hfaithful, ?_⟩,
    step_matched m act m' hmatched hact hstep, step_allWritten m act m' hwritten hact' hstep⟩
  cases act with
  | finish i cloud =>
    intro r hr _
    rw [← hmatched r (List.mem_of_getElem? hr)]
    exact hwritten r (List.mem_of_getElem? hr)
  | record current clientTerm new sync => trivial
  | delete current clientTerm objID => trivial
  | commit batch => trivial

def oneMeta : ObjectMeta where
  objId := [97]
  objSize := 0
  updateTime := ⟨0, 0⟩
  objHash := []
  pgId := 0
  blocks := []
  term := 1

def onePut : MetaOperate where
  operateId := (Idutil.newGenerator 1 0).next.1
  operate := .PUT
  objectMeta := { oneMeta with objId := cleanObjectKey oneMeta.objId }

def recordOne (call : StorageCall) : List MetaAction :=
  [.record 1 1 oneMeta false, .commit [(onePut, call)], .finish 0 true]

def stepOne : MetaNode → MetaAction → Option MetaNode :=
  step (fun _ _ => 0) ⟨fun _ => none, fun _ => none⟩ ObjectMeta.objId
    fun _ => .error .metaNotExist

def answeredOne (call : StorageCall) : MetaNode where
  pgID := 0
  reqIDGen := (Idutil.newGenerator 1 0).next.2
  storage := (RocksDBMetaStorage.empty.operateCall ObjectMeta.objId onePut call).1
  answers := [⟨⟨⟨onePut, false⟩, onePut, .empty, call⟩, .ok ()⟩]

theorem run_recordOne (call : StorageCall) :
    run stepOne (new 0 1 0) (recordOne call) = some (answeredOne call) := rfl

theorem faithful_recordOne :
    run stepOne (new 0 1 0) (recordOne {}) = some (answeredOne {}) ∧
      (answeredOne {}).Faithful ObjectMeta.objId := by
  refine ⟨run_recordOne {}, (faithful_iff_sound _ _ _ _ 0 1 0 _ _ (run_recordOne {}) ?_).2 ?_⟩
  · refine ⟨trivial, fun n₁ h₁ => ⟨?_, fun n₂ h₂ => ⟨trivial, fun _ _ => trivial⟩⟩⟩
    cases h₁
    intro entry hentry p hp _
    cases List.mem_singleton.1 hentry
    cases List.mem_singleton.1 hp
    rfl
  · refine ⟨trivial, fun n₁ h₁ => ⟨trivial, fun n₂ h₂ => ⟨?_, fun _ _ => trivial⟩⟩⟩
    cases h₁
    cases h₂
    intro r hr _
    cases hr
    exact ⟨rfl, fun _ => rfl⟩

/-- A meta that cannot be marshalled is stored as an empty value, one that cannot be written is not
stored, and both are acknowledged. -/
theorem failed_put_acknowledged :
    (run stepOne (new 0 1 0) (recordOne { marshalled := false }) =
        some (answeredOne { marshalled := false }) ∧
      (answeredOne { marshalled := false }).answers.map Answered.result = [.ok ()] ∧
      (answeredOne { marshalled := false }).storage.lookup onePut.objectMeta.objId = some [] ∧
      ¬(answeredOne { marshalled := false }).Faithful ObjectMeta.objId) ∧
    (run stepOne (new 0 1 0) (recordOne { write := some (.other "IO error") }) =
        some (answeredOne { write := some (.other "IO error") }) ∧
      (answeredOne { write := some (.other "IO error") }).answers.map Answered.result = [.ok ()] ∧
      (answeredOne { write := some (.other "IO error") }).storage.lookup
        onePut.objectMeta.objId = none ∧
      ¬(answeredOne { write := some (.other "IO error") }).Faithful ObjectMeta.objId) := by
  have hnot : ∀ call : StorageCall, ¬call.Writes ObjectMeta.objId onePut →
      ¬(answeredOne call).Faithful ObjectMeta.objId := by
    intro call hcall hfaithful
    have hone : (finish ⟨⟨onePut, false⟩, onePut, .empty, call⟩ true).Faithful ObjectMeta.objId :=
      hfaithful _ List.mem_cons_self
    exact hcall ((faithful_finish_iff rfl _).1 hone (.inl rfl))
  exact ⟨⟨rfl, rfl, by decide +kernel, hnot _ (by decide +kernel)⟩,
    ⟨rfl, rfl, by decide +kernel, hnot _ (by decide +kernel)⟩⟩

end MetaNode

end Ecos.Alaya
