import Ecos.Gaia.StoredBlock

namespace Ecos.Gaia
open Go Moon

structure DeleteBlockRequest where
  blockId : Bytes
  pipeline : Option Pipeline
  term : UInt64 := 0
  deriving DecidableEq, Repr

abbrev Disks := UInt64 → Finset Bytes

inductive Fault where
  /-- the node does not handle the request -/
  | unreachable
  /-- the node handles the request, and its answer does not arrive -/
  | lost
  deriving DecidableEq, Repr

/-- The failures during a call: of the requests to the other nodes, in order, and of the removal
of the own file. -/
structure Faults where
  remote : ℕ → Option Fault := fun _ => none
  remove : Bool := false

inductive DeleteOutcome where
  | ok
  | error (e : Errno)
  | panics
  deriving DecidableEq, Repr

def remove (fails : Bool) (self : UInt64) (path : Bytes) (d : Disks) : Disks × Option Errno :=
  if fails = false ∧ path ∈ d self then
    (Function.update d self ((d self).erase path), none)
  else (d, some (.other "remove"))

def andThen (r : Disks × Option Errno) (next : Disks → Disks × Option Errno) :
    Disks × Option Errno :=
  match r with
  | (d, some e) => (d, some e)
  | (d, none) => next d

/-- `PrimaryCopyTransporter.Delete`, given the loop over the remote writers. -/
def PrimaryCopyTransporter.delete (remotes : List RemoteWriter → Disks → Disks × Option Errno)
    (fails : Bool) (self : UInt64) (d : Disks) (t : PrimaryCopyTransporter) :
    Option (Disks × Option Errno) := do
  let localPath ← t.getStoragePath
  return andThen (remotes t.remoteWriters d) (remove fails self localPath)

namespace Cluster
variable (c : Cluster)

/-- `Gaia.DeleteBlock` on the node `self`. -/
def serve (remotes : List RemoteWriter → Disks → Disks × Option Errno) (fails : Bool)
    (self : UInt64) (req : DeleteBlockRequest) (d : Disks) : Disks × DeleteOutcome :=
  match (c.node self).getClusterInfoByTerm req.term with
  | .error e => (d, .error e)
  | .ok clusterInfo =>
    let blockInfo : BlockInfo := { blockId := req.blockId, blockSize := 0 }
    match (newPrimaryCopyTransporter (some blockInfo) req.pipeline (c.node self).selfID clusterInfo
        (c.node self).basePath).bind (PrimaryCopyTransporter.delete remotes fails self d) with
    | none => (d, .panics)
    | some (d, some e) => (d, .error e)
    | some (d, none) => (d, .ok)

/-- `RemoteWriter.Delete`. The pipeline of the request has the asked node only, which asks no other
one. -/
def deleteOn (fault : Option Fault) (w : RemoteWriter) (d : Disks) : Disks × Option Errno :=
  if fault = some .unreachable then (d, some .remoteGaiaFail)
  else
    let blockId := (w.blockInfo.map BlockInfo.blockId).getD []
    let (d, outcome) := c.serve (fun _ d => (d, none)) false w.node ⟨blockId, some w.pipeline, 0⟩ d
    (d, if fault = none ∧ outcome = .ok then none else some .remoteGaiaFail)

/-- The loop of `Delete`, up to the first error. -/
def deleteRemotes (faults : ℕ → Option Fault) :
    List RemoteWriter → Disks → Disks × Option Errno
  | [], d => (d, none)
  | w :: ws, d => andThen (c.deleteOn (faults 0) w d) (deleteRemotes (fun i => faults (i + 1)) ws)

def deleteBlock (faults : Faults) (self : UInt64) (req : DeleteBlockRequest) (d : Disks) :
    Disks × DeleteOutcome :=
  c.serve (c.deleteRemotes faults.remote) faults.remove self req d

def Holds (req : DeleteBlockRequest) (d : Disks) (id : UInt64) : Prop :=
  pathJoin [(c.node id).basePath, req.blockId] ∈ d id

instance (req : DeleteBlockRequest) (d : Disks) (id : UInt64) : Decidable (c.Holds req d id) :=
  inferInstanceAs (Decidable (_ ∈ _))

/-- Where a call with these failures returns an error, the next one without failures returns
success and leaves no node of the pipeline with the block. -/
def Retryable (self : UInt64) (req : DeleteBlockRequest) (p : Pipeline) (d : Disks)
    (faults : Faults) : Prop :=
  ∀ d' e, c.deleteBlock faults self req d = (d', .error e) →
    ∃ d'', c.deleteBlock {} self req d' = (d'', .ok) ∧ ∀ id ∈ p.raftId, ¬c.Holds req d'' id

def others (self : UInt64) (p : Pipeline) : List UInt64 := p.raftId.filter (· ≠ self)

def Serving (id : UInt64) : Prop := ∃ info, (c.node id).getClusterInfoByTerm 0 = .ok info

/-- Nothing but the failures stands in the way of the call: the cluster info is there, the other
nodes are known and have a cluster info too, none is listed twice, and the file is there. -/
structure Ready (primary : UInt64) (req : DeleteBlockRequest) (p : Pipeline) (d : Disks) :
    Prop where
  known : ∃ clusterInfo, (c.node primary).getClusterInfoByTerm req.term = .ok clusterInfo ∧
    ∀ id ∈ others primary p, (getNodeInfo clusterInfo id).isSome
  serving : ∀ id ∈ others primary p, c.Serving id
  nodup : (others primary p).Nodup
  file : c.Holds req d primary

def FailsAtOnce (self : UInt64) (p : Pipeline) (faults : Faults) : Prop :=
  if others self p = [] then faults.remove = true else faults.remote 0 = some .unreachable

variable {c} {self id : UInt64} {req : DeleteBlockRequest} {p : Pipeline} {d d' : Disks}

def without (c : Cluster) (req : DeleteBlockRequest) (d : Disks) (id : UInt64) : Disks :=
  Function.update d id ((d id).erase (pathJoin [(c.node id).basePath, req.blockId]))

theorem not_holds_without : ¬c.Holds req (c.without req d id) id := by
  rw [Holds, without, Function.update_self]
  exact Finset.notMem_erase _ _

theorem holds_without_iff {id' : UInt64} :
    c.Holds req (c.without req d id) id' ↔ id' ≠ id ∧ c.Holds req d id' := by
  by_cases hid : id' = id
  · subst hid
    simp [not_holds_without]
  · rw [Holds, without, Function.update_of_ne hid]
    simp [hid, Holds]

theorem remove_eq (fails : Bool) :
    remove fails id (pathJoin [(c.node id).basePath, req.blockId]) d =
      if fails = false ∧ c.Holds req d id then (c.without req d id, none)
      else (d, some (.other "remove")) := rfl

def blockInfo (req : DeleteBlockRequest) : BlockInfo := { blockId := req.blockId, blockSize := 0 }

def writer (req : DeleteBlockRequest) (p : Pipeline) (id : UInt64) : RemoteWriter :=
  forwarding (blockInfo req) p [] id

/-- What the handler answers for the error of `Delete`. -/
def answer (r : Disks × Option Errno) : Disks × DeleteOutcome :=
  (r.1, match r.2 with
    | none => .ok
    | some e => .error e)

/-- `Delete` on `self`: the other nodes first, and then the own file. -/
def deleteFrom (c : Cluster) (remotes : List RemoteWriter → Disks → Disks × Option Errno)
    (fails : Bool) (self : UInt64) (req : DeleteBlockRequest) (p : Pipeline) (d : Disks) :
    Disks × Option Errno :=
  andThen (remotes ((others self p).map (writer req p)) d)
    (remove fails self (pathJoin [(c.node self).basePath, req.blockId]))

theorem newTransporter_eq {clusterInfo : ClusterInfo}
    (hknown : ∀ id ∈ others self p, (getNodeInfo clusterInfo id).isSome) :
    newPrimaryCopyTransporter (some (blockInfo req)) (some p) (c.node self).selfID clusterInfo
        (c.node self).basePath = some (receiving (c.node self) (blockInfo req) p []) := by
  rw [others, ← c.selfID self] at hknown
  obtain ⟨ws, hws⟩ := @mapM_newRemoteWriter_isSome (blockInfo req) p _ _ hknown
  obtain ⟨t, ht⟩ : ∃ t, newPrimaryCopyTransporter (some (blockInfo req)) (some p)
      (c.node self).selfID clusterInfo (c.node self).basePath = some t := by
    simp only [newPrimaryCopyTransporter, Option.bind_eq_bind, Option.bind_some]
    rw [hws]
    exact ⟨_, rfl⟩
  rw [ht, newPrimaryCopyTransporter_eq ht]

section serve
variable {remotes : List RemoteWriter → Disks → Disks × Option Errno} {fails : Bool}
  {clusterInfo : ClusterInfo}

theorem serve_of_known (hp : req.pipeline = some p)
    (hinfo : (c.node self).getClusterInfoByTerm req.term = .ok clusterInfo)
    (hknown : ∀ id ∈ others self p, (getNodeInfo clusterInfo id).isSome) :
    c.serve remotes fails self req d = answer (c.deleteFrom remotes fails self req p d) := by
  have hnew : newPrimaryCopyTransporter (some { blockId := req.blockId, blockSize := 0 }) (some p)
      (c.node self).selfID clusterInfo (c.node self).basePath =
        some (receiving (c.node self) (blockInfo req) p []) := newTransporter_eq hknown
  have hremotes : (receiving (c.node self) (blockInfo req) p []).remoteWriters =
      (others self p).map (writer req p) := by
    rw [receiving, c.selfID]
    rfl
  have hdelete : (receiving (c.node self) (blockInfo req) p []).delete remotes fails self d =
      some (c.deleteFrom remotes fails self req p d) := by
    rw [PrimaryCopyTransporter.delete, hremotes]
    rfl
  simp only [serve, hinfo, hp, hnew, Option.bind_some, hdelete]
  rcases c.deleteFrom remotes fails self req p d with ⟨d, _ | e⟩ <;> rfl

theorem known_of_mapM {info : BlockInfo} {ids : List UInt64} {ws : List RemoteWriter}
    (h : ids.mapM (fun nodeID => (getNodeInfo clusterInfo nodeID).map fun nodeInfo =>
      newRemoteWriter (some info) nodeInfo p) = some ws) :
    ∀ id ∈ ids, (getNodeInfo clusterInfo id).isSome := by
  induction ids generalizing ws with
  | nil => simp
  | cons y ids ih =>
    rw [List.mapM_cons] at h
    cases hy : getNodeInfo clusterInfo y with
    | none => simp [hy] at h
    | some nodeInfo =>
      simp only [hy, Option.map_some, Option.bind_eq_bind, Option.bind_some,
        Option.bind_eq_some_iff] at h
      obtain ⟨ws', hws', -⟩ := h
      exact List.forall_mem_cons.2 ⟨by rw [hy]; rfl, ih hws'⟩

theorem serve_of_unknown (hp : req.pipeline = some p)
    (hinfo : (c.node self).getClusterInfoByTerm req.term = .ok clusterInfo)
    (hknown : ¬∀ id ∈ others self p, (getNodeInfo clusterInfo id).isSome) :
    c.serve remotes fails self req d = (d, .panics) := by
  have hnew : newPrimaryCopyTransporter (some { blockId := req.blockId, blockSize := 0 }) (some p)
      (c.node self).selfID clusterInfo (c.node self).basePath = none := by
    by_contra hnew
    obtain ⟨t, ht⟩ := Option.ne_none_iff_exists'.1 hnew
    simp only [newPrimaryCopyTransporter, Option.bind_eq_bind, Option.bind_some,
      Option.bind_eq_some_iff, c.selfID] at ht
    obtain ⟨ws, hws, -⟩ := ht
    exact hknown (known_of_mapM hws)
  simp only [serve, hinfo, hp, hnew, Option.bind_none]

theorem serve_of_error {e : Errno}
    (hinfo : (c.node self).getClusterInfoByTerm req.term = .error e) :
    c.serve remotes fails self req d = (d, .error e) := by
  simp only [serve, hinfo]

end serve

theorem others_singleNode (p : Pipeline) (id : UInt64) : others id (singleNode p id) = [] := by
  simp [others, singleNode]

/-- What a node does with the request of another one. -/
theorem serve_single (hserving : c.Serving id) (req : DeleteBlockRequest) (p : Pipeline)
    (d : Disks) :
    c.serve (fun _ d => (d, none)) false id ⟨req.blockId, some (singleNode p id), 0⟩ d =
      if c.Holds req d id then (c.without req d id, .ok) else (d, .error (.other "remove")) := by
  obtain ⟨info, hinfo⟩ := hserving
  rw [serve_of_known rfl hinfo (by simp [others_singleNode]), deleteFrom]
  dsimp only [andThen]
  rw [remove, answer]
  by_cases hholds : c.Holds req d id
  · rw [if_pos hholds, if_pos ⟨rfl, hholds⟩]
    rfl
  · rw [if_neg hholds, if_neg (fun h => hholds h.2)]

variable {fault : Option Fault}

theorem deleteOn_removes (hfault : fault ≠ some .unreachable) (hserving : c.Serving id)
    (hholds : c.Holds req d id) :
    c.deleteOn fault (writer req p id) d =
      (c.without req d id, if fault = none then none else some .remoteGaiaFail) := by
  have hserve := serve_single hserving req p d
  rw [if_pos hholds] at hserve
  rw [deleteOn, if_neg hfault]
  dsimp only [writer, forwarding, blockInfo, Option.map_some, Option.getD_some]
  rw [hserve]
  simp

theorem deleteOn_keeps (h : fault = some .unreachable ∨ ¬(c.Serving id ∧ c.Holds req d id)) :
    c.deleteOn fault (writer req p id) d = (d, some .remoteGaiaFail) := by
  by_cases hfault : fault = some .unreachable
  · rw [deleteOn, if_pos hfault]
  have hserve : ∃ o, c.serve (fun _ d => (d, none)) false id
      ⟨req.blockId, some (singleNode p id), 0⟩ d = (d, o) ∧ o ≠ .ok := by
    rcases h with h | h
    · exact absurd h hfault
    cases hinfo : (c.node id).getClusterInfoByTerm 0 with
    | error e => exact ⟨_, serve_of_error hinfo, by simp⟩
    | ok info =>
      have hholds : ¬c.Holds req d id := fun hholds => h ⟨⟨info, hinfo⟩, hholds⟩
      exact ⟨_, by rw [serve_single ⟨info, hinfo⟩, if_neg hholds], by simp⟩
  obtain ⟨o, hserve, ho⟩ := hserve
  rw [deleteOn, if_neg hfault]
  dsimp only [writer, forwarding, blockInfo, Option.map_some, Option.getD_some]
  rw [hserve]
  simp [ho]

/-- A removal takes the block from one node at most. -/
theorem deleteOn_disks (fault : Option Fault) (req : DeleteBlockRequest) (p : Pipeline)
    (id : UInt64) (d : Disks) :
    (c.deleteOn fault (writer req p id) d).1 = d ∨
      (c.deleteOn fault (writer req p id) d).1 = c.without req d id := by
  by_cases hkeeps : fault = some .unreachable ∨ ¬(c.Serving id ∧ c.Holds req d id)
  · rw [deleteOn_keeps hkeeps]
    exact .inl rfl
  · rw [not_or, not_not] at hkeeps
    rw [deleteOn_removes hkeeps.1 hkeeps.2.1 hkeeps.2.2]
    exact .inr rfl

/-- The loop takes the block from some of the nodes, and from no other one. -/
theorem deleteRemotes_disks (c : Cluster) (faults : ℕ → Option Fault) (req : DeleteBlockRequest)
    (p : Pipeline) (ids : List UInt64) (d : Disks) :
    ∃ removed ⊆ ids, ∀ id, c.Holds req (c.deleteRemotes faults (ids.map (writer req p)) d).1 id ↔
      id ∉ removed ∧ c.Holds req d id := by
  induction ids generalizing d faults with
  | nil => exact ⟨[], List.Subset.refl _, by simp [deleteRemotes]⟩
  | cons id ids ih =>
    rw [List.map_cons, deleteRemotes]
    obtain ⟨removed, hsub, hremoved⟩ : ∃ removed ⊆ ids, ∀ id',
        c.Holds req (andThen (c.deleteOn (faults 0) (writer req p id) d)
          (c.deleteRemotes (fun i => faults (i + 1)) (ids.map (writer req p)))).1 id' ↔
        id' ∉ removed ∧ c.Holds req (c.deleteOn (faults 0) (writer req p id) d).1 id' := by
      rcases c.deleteOn (faults 0) (writer req p id) d with ⟨d, _ | e⟩
      · exact ih _ d
      · exact ⟨[], List.nil_subset _, by simp [andThen]⟩
    rcases deleteOn_disks (c := c) (faults 0) req p id d with hone | hone
    · refine ⟨removed, List.subset_cons_of_subset _ hsub, fun id' => ?_⟩
      rw [hremoved, hone]
    · refine ⟨id :: removed, List.cons_subset_cons _ hsub, fun id' => ?_⟩
      rw [hremoved, hone, holds_without_iff, List.mem_cons]
      tauto

/-- The first node that is asked has no block left if the request reaches it. -/
theorem not_holds_head {faults : ℕ → Option Fault} {ids : List UInt64}
    (hfault : faults 0 ≠ some .unreachable) (hserving : c.Serving id) :
    ¬c.Holds req (c.deleteRemotes faults ((id :: ids).map (writer req p)) d).1 id := by
  by_cases hholds : c.Holds req d id
  · rw [List.map_cons, deleteRemotes, deleteOn_removes hfault hserving hholds]
    by_cases hnone : faults 0 = none
    · rw [if_pos hnone]
      obtain ⟨removed, -, hremoved⟩ := c.deleteRemotes_disks
        (fun i => faults (i + 1)) req p ids (c.without req d id)
      exact fun h => not_holds_without ((hremoved id).1 h).2
    · rw [if_neg hnone]
      exact not_holds_without
  · obtain ⟨removed, -, hremoved⟩ := c.deleteRemotes_disks faults req p (id :: ids) d
    exact fun h => hholds ((hremoved id).1 h).2

/-- Without failures the loop succeeds exactly when all nodes can delete the block, and each is
asked once. -/
theorem deleteRemotes_clean (ids : List UInt64) (d : Disks) :
    (c.deleteRemotes (fun _ => none) (ids.map (writer req p)) d).2 = none ↔
      ids.Nodup ∧ ∀ id ∈ ids, c.Serving id ∧ c.Holds req d id := by
  induction ids generalizing d with
  | nil => simp [deleteRemotes]
  | cons id ids ih =>
    rw [List.map_cons, deleteRemotes, List.nodup_cons, List.forall_mem_cons]
    by_cases hkeeps : c.Serving id ∧ c.Holds req d id
    swap
    · rw [deleteOn_keeps (.inr hkeeps)]
      simp [andThen, hkeeps]
    rw [deleteOn_removes (by simp) hkeeps.1 hkeeps.2]
    simp only [if_true, andThen, ih, holds_without_iff]
    constructor
    · rintro ⟨hnodup, hall⟩
      refine ⟨⟨fun hmem => (hall id hmem).2.1 rfl, hnodup⟩, hkeeps, fun id' hid => ?_⟩
      exact ⟨(hall id' hid).1, (hall id' hid).2.2⟩
    · rintro ⟨⟨hnotMem, hnodup⟩, -, hall⟩
      refine ⟨hnodup, fun id' hid => ⟨(hall id' hid).1, ?_, (hall id' hid).2⟩⟩
      rintro rfl
      exact hnotMem hid

theorem not_holds_of_clean {ids : List UInt64}
    (h : (c.deleteRemotes (fun _ => none) (ids.map (writer req p)) d).2 = none) :
    ∀ id ∈ ids, ¬c.Holds req (c.deleteRemotes (fun _ => none) (ids.map (writer req p)) d).1 id := by
  induction ids generalizing d with
  | nil => simp
  | cons id ids ih =>
    obtain ⟨-, hall⟩ := (deleteRemotes_clean _ _).1 h
    obtain ⟨hserving, hholds⟩ := hall id List.mem_cons_self
    refine List.forall_mem_cons.2 ⟨not_holds_head (by simp) hserving, ?_⟩
    rw [List.map_cons, deleteRemotes, deleteOn_removes (by simp) hserving hholds] at h ⊢
    exact ih h

theorem self_notMem_others (self : UInt64) (p : Pipeline) : self ∉ others self p := by
  simp [others]

theorem answer_eq_ok_iff {r : Disks × Option Errno} : (answer r).2 = .ok ↔ r.2 = none := by
  rcases r with ⟨d, _ | e⟩ <;> simp [answer]

theorem deleteFrom_eq_none_iff {faults : ℕ → Option Fault} {fails : Bool} :
    (c.deleteFrom (c.deleteRemotes faults) fails self req p d).2 = none ↔
      (c.deleteRemotes faults ((others self p).map (writer req p)) d).2 = none ∧
        fails = false ∧ c.Holds req d self := by
  obtain ⟨removed, hsub, hremoved⟩ := c.deleteRemotes_disks faults req p (others self p) d
  have hself : self ∉ removed := fun h => self_notMem_others self p (hsub h)
  have hfile := hremoved self
  rw [deleteFrom]
  generalize c.deleteRemotes faults ((others self p).map (writer req p)) d = r at hfile
  rcases r with ⟨d', _ | e⟩
  · rw [andThen, remove_eq]
    simp only [hself, not_false_eq_true, true_and] at hfile
    rw [← hfile]
    split_ifs with h <;> simp [h]
  · simp [andThen]

/-- A call without failures succeeds exactly when nothing stands in its way and every other node
of the pipeline holds the block. -/
theorem deleteBlock_clean (hp : req.pipeline = some p) :
    (c.deleteBlock {} self req d).2 = .ok ↔
      c.Ready self req p d ∧ ∀ id ∈ others self p, c.Holds req d id := by
  rw [deleteBlock]
  cases hinfo : (c.node self).getClusterInfoByTerm req.term with
  | error e =>
    rw [serve_of_error hinfo]
    refine ⟨fun h => (by cases h), fun h => ?_⟩
    obtain ⟨info, hinfo', -⟩ := h.1.known
    rw [hinfo] at hinfo'
    cases hinfo'
  | ok info =>
    by_cases hknown : ∀ id ∈ others self p, (getNodeInfo info id).isSome
    swap
    · rw [serve_of_unknown hp hinfo hknown]
      refine ⟨fun h => (by cases h), fun h => ?_⟩
      obtain ⟨info', hinfo', hknown'⟩ := h.1.known
      rw [hinfo] at hinfo'
      cases hinfo'
      exact absurd hknown' hknown
    rw [serve_of_known hp hinfo hknown, answer_eq_ok_iff, deleteFrom_eq_none_iff,
      deleteRemotes_clean]
    constructor
    · rintro ⟨⟨hnodup, hall⟩, -, hfile⟩
      exact ⟨⟨⟨info, hinfo, hknown⟩, fun id hid => (hall id hid).1, hnodup, hfile⟩,
        fun id hid => (hall id hid).2⟩
    · rintro ⟨hready, hall⟩
      exact ⟨⟨hready.nodup, fun id hid => ⟨hready.serving id hid, hall id hid⟩⟩, rfl, hready.file⟩

theorem holds_of_deleteFrom {remotes : List RemoteWriter → Disks → Disks × Option Errno}
    {fails : Bool} (h : c.Holds req (c.deleteFrom remotes fails self req p d).1 id) :
    c.Holds req (remotes ((others self p).map (writer req p)) d).1 id := by
  rw [deleteFrom] at h
  generalize remotes ((others self p).map (writer req p)) d = r at h ⊢
  rcases r with ⟨d', _ | e⟩
  · rw [andThen, remove_eq] at h
    split_ifs at h
    · exact (holds_without_iff.1 h).2
    · exact h
  · exact h

theorem not_holds_self {remotes : List RemoteWriter → Disks → Disks × Option Errno} {fails : Bool}
    (h : (c.deleteFrom remotes fails self req p d).2 = none) :
    ¬c.Holds req (c.deleteFrom remotes fails self req p d).1 self := by
  rw [deleteFrom] at h ⊢
  generalize remotes ((others self p).map (writer req p)) d = r at h ⊢
  rcases r with ⟨d', _ | e⟩
  · rw [andThen, remove_eq] at h ⊢
    split_ifs at h ⊢
    exact not_holds_without
  · cases h

/-- A success without failures leaves no node of the pipeline with the block. -/
theorem not_holds_of_ok (hp : req.pipeline = some p) (h : (c.deleteBlock {} self req d).2 = .ok) :
    ∀ id ∈ p.raftId, ¬c.Holds req (c.deleteBlock {} self req d).1 id := by
  obtain ⟨⟨info, hinfo, hknown⟩, -⟩ := ((deleteBlock_clean hp).1 h).1
  rw [deleteBlock, serve_of_known hp hinfo hknown] at h ⊢
  rw [answer_eq_ok_iff] at h
  intro id hid hholds
  by_cases hself : id = self
  · subst hself
    exact not_holds_self h hholds
  · obtain ⟨hremotes, -⟩ := deleteFrom_eq_none_iff.1 h
    have hmem : id ∈ others self p := List.mem_filter.2 ⟨hid, by simpa using hself⟩
    exact not_holds_of_clean hremotes id hmem (holds_of_deleteFrom hholds)

/-- A call whose first removal fails at once leaves everything as it was. -/
theorem FailsAtOnce.deleteFrom_eq {faults : Faults} (h : FailsAtOnce self p faults) :
    (c.deleteFrom (c.deleteRemotes faults.remote) faults.remove self req p d).1 = d := by
  rw [deleteFrom]
  rw [FailsAtOnce] at h
  cases hothers : others self p with
  | nil =>
    rw [if_pos hothers] at h
    rw [List.map_nil, deleteRemotes, andThen, remove_eq, if_neg (by simp [h])]
  | cons id ids =>
    rw [if_neg (by simp [hothers])] at h
    rw [List.map_cons, deleteRemotes, deleteOn_keeps (.inl h)]
    rfl

/-- Where a failed call has left the block on every other node, its first removal has failed at
once. -/
theorem failsAtOnce_of_holds {faults : Faults} (hready : c.Ready self req p d)
    (hfailed : (c.deleteFrom (c.deleteRemotes faults.remote) faults.remove self req p d).2 ≠ none)
    (hleft : ∀ id ∈ others self p, c.Holds req
      (c.deleteFrom (c.deleteRemotes faults.remote) faults.remove self req p d).1 id) :
    FailsAtOnce self p faults := by
  rw [FailsAtOnce]
  cases hothers : others self p with
  | nil =>
    rw [if_pos rfl]
    by_contra hremove
    refine hfailed (deleteFrom_eq_none_iff.2 ⟨?_, by simpa using hremove, hready.file⟩)
    rw [hothers]
    rfl
  | cons id ids =>
    rw [if_neg (List.cons_ne_nil _ _)]
    by_contra hfault
    have hmem : id ∈ others self p := by rw [hothers]; exact List.mem_cons_self
    have hholds := holds_of_deleteFrom (hleft id hmem)
    rw [hothers] at hholds
    exact not_holds_head hfault (hready.serving id hmem) hholds

theorem Retryable.retry_ok {faults : Faults} {e : Errno} (h : c.Retryable self req p d faults)
    (he : (c.deleteBlock faults self req d).2 = .error e) :
    (c.deleteBlock {} self req (c.deleteBlock faults self req d).1).2 = .ok := by
  obtain ⟨d'', hd'', -⟩ := h (c.deleteBlock faults self req d).1 e (Prod.ext rfl he)
  rw [hd'']

/-- A failed call can be retried exactly when its first removal has failed without an effect, and
nothing else stands in the way of the call. -/
theorem retryable_iff (c : Cluster) (self : UInt64) (req : DeleteBlockRequest) (p : Pipeline)
    (d : Disks) (faults : Faults) (e : Errno) (hp : req.pipeline = some p)
    (hholds : ∀ id ∈ p.raftId, c.Holds req d id)
    (he : (c.deleteBlock faults self req d).2 = .error e) :
    c.Retryable self req p d faults ↔ FailsAtOnce self p faults ∧ c.Ready self req p d := by
  have hretry : c.Retryable self req p d faults ↔
      c.Ready self req p (c.deleteBlock faults self req d).1 ∧
        ∀ id ∈ others self p, c.Holds req (c.deleteBlock faults self req d).1 id := by
    rw [← deleteBlock_clean hp]
    refine ⟨fun h => h.retry_ok he, fun h d' e' hd' => ?_⟩
    rw [hd'] at h
    exact ⟨_, Prod.ext rfl h, not_holds_of_ok hp h⟩
  rw [hretry]
  cases hinfo : (c.node self).getClusterInfoByTerm req.term with
  | error e' =>
    have hnot : ∀ d, ¬c.Ready self req p d := fun d hready => by
      obtain ⟨info, hinfo', -⟩ := hready.known
      rw [hinfo] at hinfo'
      cases hinfo'
    exact ⟨fun h => absurd h.1 (hnot _), fun h => absurd h.2 (hnot _)⟩
  | ok info =>
    by_cases hknown : ∀ id ∈ others self p, (getNodeInfo info id).isSome
    swap
    · rw [deleteBlock, serve_of_unknown hp hinfo hknown] at he
      cases he
    rw [deleteBlock, serve_of_known hp hinfo hknown] at he ⊢
    constructor
    · -- what the retry needs was there before, and a replica that is gone would fail it
      rintro ⟨hready', hleft⟩
      obtain ⟨removed, -, hremoved⟩ := c.deleteRemotes_disks faults.remote req p (others self p) d
      have hfile : c.Holds req d self := ((hremoved self).1 (holds_of_deleteFrom hready'.file)).2
      have hready : c.Ready self req p d :=
        ⟨hready'.known, hready'.serving, hready'.nodup, hfile⟩
      refine ⟨failsAtOnce_of_holds hready (fun hnone => ?_) hleft, hready⟩
      rw [answer_eq_ok_iff.2 hnone] at he
      cases he
    · rintro ⟨hfails, hready⟩
      rw [answer, hfails.deleteFrom_eq]
      exact ⟨hready, fun id hid => hholds id (List.mem_of_mem_filter hid)⟩

def three : Cluster where
  node id :=
    { selfID := id
      basePath := [100]
      getClusterInfoByTerm := fun _ => .ok
        { term := 1
          leaderInfo := none
          nodesInfo := [1, 2, 3].map fun id => ⟨id, [], [], 0, 0, .ONLINE⟩
          metaPgNum := 10
          metaPgSize := 3
          blockPgNum := 100
          blockPgSize := 3
          lastTerm := 0 }
      reply := fun _ _ => none }
  selfID _ := rfl
  delivers _ _ _ _ h := by cases h

def threeRequest : DeleteBlockRequest := ⟨[98], some ⟨0, [1, 2, 3]⟩, 1⟩

def threeDisks : Disks := fun _ => {[100, 47, 98]}

theorem holds_three (id : UInt64) : three.Holds threeRequest threeDisks id := by
  change pathJoin [[100], [98]] ∈ ({[100, 47, 98]} : Finset Bytes)
  decide +kernel

/-- The request to the node at this place does not arrive. -/
def unreachableAt (i : ℕ) : Faults where
  remote j := if j = i then some .unreachable else none

theorem retryable_of_first_unreachable :
    (three.deleteBlock (unreachableAt 0) 1 threeRequest threeDisks).2 = .error .remoteGaiaFail ∧
      three.Retryable 1 threeRequest ⟨0, [1, 2, 3]⟩ threeDisks (unreachableAt 0) := by
  have hfirst : (three.deleteBlock (unreachableAt 0) 1 threeRequest threeDisks).2 =
      .error .remoteGaiaFail := by decide +kernel
  refine ⟨hfirst, ?_⟩
  rw [retryable_iff three 1 threeRequest ⟨0, [1, 2, 3]⟩ threeDisks _ _ rfl
    (fun id _ => holds_three id) hfirst]
  refine ⟨rfl, ⟨_, rfl, ?_⟩, fun id _ => ⟨_, rfl⟩, by decide, holds_three 1⟩
  rw [show others 1 ⟨0, [1, 2, 3]⟩ = [2, 3] by decide]
  exact List.forall_mem_cons.mpr
    ⟨by decide +kernel, List.forall_mem_singleton.mpr (by decide +kernel)⟩

/-- The first node has deleted its copy when the second cannot be reached, and the retry stops at
it. The other copies stay. -/
theorem retry_stops_at_deleted_copy :
    (three.deleteBlock (unreachableAt 1) 1 threeRequest threeDisks).2 = .error .remoteGaiaFail ∧
      (three.deleteBlock {} 1 threeRequest
        (three.deleteBlock (unreachableAt 1) 1 threeRequest threeDisks).1).2 =
          .error .remoteGaiaFail ∧
      three.Holds threeRequest (three.deleteBlock {} 1 threeRequest
        (three.deleteBlock (unreachableAt 1) 1 threeRequest threeDisks).1).1 3 ∧
      ¬three.Retryable 1 threeRequest ⟨0, [1, 2, 3]⟩ threeDisks (unreachableAt 1) := by
  have hfirst : (three.deleteBlock (unreachableAt 1) 1 threeRequest threeDisks).2 =
      .error .remoteGaiaFail := by decide +kernel
  have hsecond : (three.deleteBlock {} 1 threeRequest
      (three.deleteBlock (unreachableAt 1) 1 threeRequest threeDisks).1).2 =
        .error .remoteGaiaFail := by decide +kernel
  refine ⟨hfirst, hsecond, by decide +kernel, fun h => ?_⟩
  rw [h.retry_ok hfirst] at hsecond
  cases hsecond

end Cluster

end Ecos.Gaia
