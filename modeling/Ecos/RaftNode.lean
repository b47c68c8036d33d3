import Ecos.Go.Strings

namespace Ecos.Raft
open Go

inductive EntryType where
  | normal
  | confChange
  | confChangeV2
  deriving DecidableEq, Repr

structure Entry where
  index : UInt64
  type : EntryType
  data : Bytes
  deriving DecidableEq, Repr

inductive ConfChangeType where
  | addNode
  | removeNode
  | updateNode
  | addLearnerNode
  deriving DecidableEq, Repr

structure ConfChange where
  type : ConfChangeType
  nodeID : UInt64
  context : Bytes
  deriving DecidableEq, Repr

structure RaftNode where
  appliedIndex : UInt64
  snapshotIndex : UInt64
  snapCount : UInt64
  deriving DecidableEq, Repr

def defaultSnapshotCount : UInt64 := 2000

/-- The state in which `serveChannels` starts: the indices of the restored snapshot. -/
def newRaftNode (snapshotIndex : UInt64) : RaftNode :=
  ⟨snapshotIndex, snapshotIndex, defaultSnapshotCount⟩

/-- The ways out of the event loop: the three `Fatalf` calls and the cancelled context. -/
inductive Exit where
  | entryGap (firstIdx appliedIndex : UInt64)
  | badConfChange
  | staleSnapshot (index appliedIndex : UInt64)
  | ctxDone
  deriving DecidableEq, Repr

def entriesToApply (rc : RaftNode) (ents : List Entry) : Except Exit (List Entry) :=
  match ents with
  | [] => .ok ents
  | e :: _ =>
    let firstIdx := e.index
    if firstIdx > rc.appliedIndex + 1 then .error (.entryGap firstIdx rc.appliedIndex)
    else if rc.appliedIndex - firstIdx + 1 < UInt64.ofNat ents.length then
      .ok (ents.drop (rc.appliedIndex - firstIdx + 1).toNat)
    else .ok []

/-- The entries whose data `publishEntries` collects: empty messages are ignored. -/
def isCommand (e : Entry) : Bool := decide (e.type = .normal ∧ e.data ≠ [])

/-- The configuration changes that `publishEntries` applies on its way through a batch. -/
def confChanges (unmarshal : Bytes → Option ConfChange) : List Entry → Except Exit (List ConfChange)
  | [] => .ok []
  | e :: ents =>
    match e.type with
    | .confChange =>
      match unmarshal e.data with
      | none => .error .badConfChange
      | some cc => (confChanges unmarshal ents).map (cc :: ·)
    | _ => confChanges unmarshal ents

/-- What the consumer receives: a commit with its data, or `nil`, which tells it to
load the snapshot. -/
inductive CommitMsg where
  | loadSnapshot
  | commit (data : List Bytes)
  deriving DecidableEq, Repr

/-- The node after a batch has gone out: `appliedIndex` is the index of its last entry. -/
def RaftNode.published (rc : RaftNode) (ents : List Entry) : RaftNode :=
  match ents.getLast? with
  | none => rc
  | some e => { rc with appliedIndex := e.index }

/-- What `publishEntries` leaves behind: the node, the configuration changes and the
messages it sent. -/
structure Published where
  rc : RaftNode
  applyConfChangeC : List ConfChange
  commitC : List CommitMsg
  deriving DecidableEq, Repr

/-- `ctxDone` tells whether the select around the send took the cancelled context. -/
def publishEntries (unmarshal : Bytes → Option ConfChange) (rc : RaftNode) (ents : List Entry)
    (ctxDone : Bool) : Except Exit Published := do
  let ccs ← confChanges unmarshal ents
  let data := (ents.filter isCommand).map Entry.data
  if data = [] then
    return ⟨rc.published ents, ccs, []⟩
  else if ctxDone then
    throw .ctxDone
  else
    return ⟨rc.published ents, ccs, [.commit data]⟩

/-- `publishSnapshot`; a snapshot is empty when its index is zero. -/
def publishSnapshot (rc : RaftNode) (index : UInt64) : Except Exit (RaftNode × List CommitMsg) :=
  if index = 0 then .ok (rc, [])
  else if index ≤ rc.appliedIndex then .error (.staleSnapshot index rc.appliedIndex)
  else .ok ({ rc with snapshotIndex := index, appliedIndex := index }, [.loadSnapshot])

/-- The threshold of `maybeTriggerSnapshot`. -/
def RaftNode.dueSnapshot (rc : RaftNode) : Bool :=
  !decide (rc.appliedIndex - rc.snapshotIndex ≤ rc.snapCount)

/-- `maybeTriggerSnapshot`, as far as the node's own indices go. `waits` tells whether there
is a channel to wait on, `ctxDone` whether that wait ended with the cancelled context. -/
def maybeTriggerSnapshot (rc : RaftNode) (waits ctxDone : Bool) : RaftNode :=
  if !rc.dueSnapshot then rc
  else if waits && ctxDone then rc
  else { rc with snapshotIndex := rc.appliedIndex }

structure Ready where
  snapshotIndex : UInt64
  committedEntries : List Entry
  sendDone : Bool := false
  waitDone : Bool := false
  deriving DecidableEq, Repr

structure Loop where
  rc : RaftNode
  applyConfChangeC : List ConfChange
  commitC : List CommitMsg
  deriving DecidableEq, Repr

def Loop.start (snapshotIndex : UInt64) : Loop := ⟨newRaftNode snapshotIndex, [], []⟩

/-- The body of `serveChannels` for one Ready. -/
def serveReady (unmarshal : Bytes → Option ConfChange) (l : Loop) (rd : Ready) :
    Except Exit Loop := do
  let (rc, nilMsg) ← publishSnapshot l.rc rd.snapshotIndex
  let ents ← entriesToApply rc rd.committedEntries
  let p ← publishEntries unmarshal rc ents rd.sendDone
  return {
    rc := maybeTriggerSnapshot p.rc (!p.commitC.isEmpty) rd.waitDone
    applyConfChangeC := l.applyConfChangeC ++ p.applyConfChangeC
    commitC := l.commitC ++ nilMsg ++ p.commitC }

def serveChannels (unmarshal : Bytes → Option ConfChange) (l : Loop) (rds : List Ready) :
    Except Exit Loop :=
  rds.foldlM (serveReady unmarshal) l

end Ecos.Raft
