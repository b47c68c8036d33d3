import Ecos.Alaya.Service
import Ecos.Logic.Machine
import Ecos.Rainbow.CloudAlaya

namespace Ecos.Rainbow.MetaSync
open Go Logic

structure Env where
  ring : Mapper
  alaya : AlayaEnv
  /-- the volume of the outpost's client -/
  userID : Bytes
  /-- whether the field `o` of `Alaya` is set; `NewAlaya` leaves it nil -/
  o : Bool := false

abbrev Slot := UInt64 × Bytes

/-- A meta with two marks that the code does not have. -/
structure Traced extends PositionedMeta where
  /-- the client's write that it comes from -/
  write : ℕ
  /-- on a copy that the cloud fetches: the slot, and how many versions were recorded by then -/
  readFrom : Option (Slot × ℕ) := none
  deriving DecidableEq, Repr

def Traced.slot (m : Traced) : Slot := (m.pgId, m.objId)

/-- What a client hands to `SubmitMeta`, which sets the position. -/
def submitMeta (objectMeta : ObjectMeta) (position : Position) (write : ℕ) : Traced :=
  ⟨⟨objectMeta, position⟩, write, none⟩

inductive Caller where
  | client
  | outpost
  deriving DecidableEq, Repr

inductive Proposal where
  | put (caller : Caller) (m : Traced) (syncToCloud : Bool)
  | delete (m : Traced)
  deriving DecidableEq, Repr

def Proposal.recording : Proposal → List Traced
  | put _ m _ => [m]
  | delete _ => []

structure State extends CloudAlaya Traced where
  /-- the storages of the edge's groups -/
  stored : AList (fun _ : Slot => Traced) := ∅
  proposals : List Proposal := []
  /-- `GET` requests on their way to the edge -/
  gets : List Bytes := []
  /-- responses to `GET` on their way to the cloud -/
  answers : List Traced := []
  /-- the goroutines that save a fetched copy -/
  fetched : List Traced := []
  /-- `PUT` requests on their way to the edge -/
  puts : List Traced := []
  /-- responses to `PUT` on their way to the cloud -/
  putAnswers : ℕ := 0
  /-- `DELETE` requests on their way to the cloud -/
  deletes : List Bytes := []
  /-- client writes so far -/
  writes : ℕ := 0
  /-- acknowledged versions so far, and the last one of each slot -/
  versions : ℕ := 0
  acked : Slot → ℕ := fun _ => 0
  /-- what acknowledged updates of edge clients have taken away from the edge, where it was not at
  the edge only -/
  superseded : List ℕ := []

inductive Queue where
  | gets
  | answers
  | puts
  | proposals
  deriving DecidableEq, Repr

inductive Action where
  /-- `RecordObjectMeta` of an edge client, up to the proposal -/
  | edgeWrite (current clientTerm : UInt64) (objectMeta : ObjectMeta)
  /-- `DeleteMeta`, up to the proposal -/
  | edgeDelete (current clientTerm : UInt64) (objID : Bytes)
  /-- the group applies a proposal and the call that made it goes on -/
  | apply (i : ℕ)
  /-- `RecordObjectMeta` of a cloud client -/
  | cloudWrite (objectMeta : ObjectMeta)
  /-- `GetObjectMeta` of a cloud client -/
  | cloudRead (objID : Bytes)
  | edgeAnswer (j : ℕ) (current clientTerm : UInt64)
  | cloudReceive (j : ℕ)
  | cloudRecord (j : ℕ)
  | sendSync (j : ℕ)
  | syncPut
  | syncError (err : Errno)
  | requeue
  | edgePut (j : ℕ) (current clientTerm : UInt64)
  | putAnswered
  | cloudDelete (j : ℕ)
  | lose (q : Queue) (j : ℕ)
  deriving DecidableEq, Repr

section Edge
variable (e : Env) (s : State)

/-- `RecordObjectMeta` up to the proposal. -/
def recordObjectMeta (caller : Caller) (current clientTerm : UInt64) (m : Traced) :
    Except Errno Proposal := do
  let term ← Alaya.checkClientTerm current clientTerm
  let checked ← Alaya.checkObject e.ring e.alaya term m.toObjectMeta
  let m := { m with toPositionedMeta := ⟨checked, m.position⟩ }
  let syncToCloud := m.position = .EDGE ∧
    (s.stored.lookup m.slot).any fun oldMeta => oldMeta.position ≠ .EDGE
  return .put caller m syncToCloud

def getObjectMeta (current clientTerm : UInt64) (objID : Bytes) : Except Errno Traced := do
  let term ← Alaya.checkClientTerm current clientTerm
  let objID := cleanObjectKey objID
  match s.stored.lookup (calculateObjectPGID e.ring e.alaya term objID, objID) with
  | none => .error .metaNotExist
  | some m => .ok m

/-- The object that the outpost's client asks for on a `GET`; `none` where there is no bucket. -/
def requestedID (requestId : Bytes) : Option Bytes := do
  let (bucketID, key) := Outpost.splitObject requestId
  let bucketName := (bucketID.splitOn slash).getLastD []
  let bucketInfo ← e.alaya.getInfoDirect (genBucketID e.userID bucketName)
  return genObjectId e.ring bucketInfo key

/-- The copy in the response to a `GET`, where there is one. -/
def answer (current clientTerm : UInt64) (requestId : Bytes) : Option Traced := do
  let objID ← requestedID e requestId
  let m ← (getObjectMeta e s current clientTerm objID).toOption
  return { m with readFrom := some (m.slot, s.versions) }

/-- `doMetaRequest` on a `PUT`, up to the proposal. -/
def doMetaPut (current clientTerm : UInt64) (m : Traced) : Option Proposal := do
  let _ ← e.alaya.getInfoDirect (Outpost.splitObject m.objId).1
  (recordObjectMeta e s .outpost current clientTerm m).toOption

def State.takenAway (k : Slot) : List ℕ :=
  ((s.stored.lookup k).filter fun old => old.position ≠ .EDGE).toList.map Traced.write

def State.acknowledge (m : Traced) : State :=
  if m.readFrom = none then
    { s with versions := s.versions + 1, acked := Function.update s.acked m.slot (s.versions + 1) }
  else s

/-- The end of `RecordObjectMeta`. With `syncToCloud` no call returns: `o.Send` panics on a nil
outpost, and the cloud's response to the `DELETE` has no result to look at. -/
def finishPut (caller : Caller) (m : Traced) (syncToCloud : Bool) : State :=
  let t := { s with stored := s.stored.insert m.slot m }
  if syncToCloud then
    if e.o then { t with deletes := t.deletes ++ [m.objId] } else t
  else
    match caller with
    | .outpost => { t.acknowledge m with putAnswers := t.putAnswers + 1 }
    | .client => { t.acknowledge m with superseded := s.superseded ++ s.takenAway m.slot }

/-- The end of `DeleteMeta`. -/
def finishDelete (m : Traced) : State :=
  { s with
    stored := s.stored.erase m.slot
    superseded := s.superseded ++ s.takenAway m.slot }

def finish : Proposal → State
  | .put caller m syncToCloud => finishPut e s caller m syncToCloud
  | .delete m => finishDelete s m

end Edge

/-- What `CloudAlaya.GetObjectMeta` returns from its own storage. -/
def State.fromStorage (s : State) (objID : Bytes) : Option Traced := s.storage.lookup objID

/-- `CloudAlaya.RecordObjectMeta` up to the send. -/
def State.cloudRecord (s : State) (m : Traced) : State :=
  let a := s.toCloudAlaya.recordObjectMeta (fun objId => { m with objId := objId }) m.objId
  { s with toCloudAlaya := a }

def State.lose (s : State) (j : ℕ) : Queue → State
  | .gets => { s with gets := s.gets.eraseIdx j }
  | .answers => { s with answers := s.answers.eraseIdx j }
  | .puts => { s with puts := s.puts.eraseIdx j }
  | .proposals => { s with proposals := s.proposals.eraseIdx j }

def step (e : Env) (s : State) : Action → Option State
  | .edgeWrite current clientTerm objectMeta =>
    match recordObjectMeta e s .client current clientTerm
        (submitMeta objectMeta .EDGE s.writes) with
    | .error _ => some s
    | .ok p => some { s with proposals := s.proposals ++ [p], writes := s.writes + 1 }
  | .edgeDelete current clientTerm objID =>
    match getObjectMeta e s current clientTerm (cleanObjectKey objID) with
    | .error _ => some s
    | .ok m => some { s with proposals := s.proposals ++ [.delete m] }
  | .apply i => do
    let p ← s.proposals[i]?
    return finish e { s with proposals := s.proposals.eraseIdx i } p
  | .cloudWrite objectMeta =>
    some { s.cloudRecord (submitMeta objectMeta .CLOUD s.writes) with writes := s.writes + 1 }
  | .cloudRead objID =>
    match s.fromStorage objID with
    | some _ => some s
    | none => some { s with gets := s.gets ++ [objID] }
  | .edgeAnswer j current clientTerm => do
    let requestId ← s.gets[j]?
    let t := { s with gets := s.gets.eraseIdx j }
    match answer e s current clientTerm requestId with
    | none => return t
    | some m => return { t with answers := s.answers ++ [m] }
  | .cloudReceive j => do
    let m ← s.answers[j]?
    return { s with
      answers := s.answers.eraseIdx j
      fetched := s.fetched ++ [{ m with position := .EDGE_CLOUD }] }
  | .cloudRecord j => do
    let m ← s.fetched[j]?
    return { s with fetched := s.fetched.eraseIdx j }.cloudRecord m
  | .sendSync j => do
    let (_, a) ← s.toCloudAlaya.notify j
    return { s with toCloudAlaya := a }
  | .syncPut => do
    let (m, a) ← s.toCloudAlaya.sync (some (.ok ()))
    return { s with toCloudAlaya := a, puts := s.puts ++ [m] }
  | .syncError err => do
    let (_, a) ← s.toCloudAlaya.sync (some (.error err))
    return { s with toCloudAlaya := a }
  | .requeue => do
    let a ← s.toCloudAlaya.requeue
    return { s with toCloudAlaya := a }
  | .edgePut j current clientTerm => do
    let m ← s.puts[j]?
    let t := { s with puts := s.puts.eraseIdx j }
    match doMetaPut e s current clientTerm m with
    | none => return { t with putAnswers := s.putAnswers + 1 }
    | some p => return { t with proposals := s.proposals ++ [p] }
  | .putAnswered => do
    let (_, a) ← s.toCloudAlaya.answered
    if 0 < s.putAnswers then some { s with toCloudAlaya := a, putAnswers := s.putAnswers - 1 }
    else none
  | .cloudDelete j => do
    let objID ← s.deletes[j]?
    return { s with storage := s.storage.erase objID, deletes := s.deletes.eraseIdx j }
  | .lose q j => some (s.lose j q)

end Ecos.Rainbow.MetaSync
