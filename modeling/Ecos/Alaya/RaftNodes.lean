import Ecos.Alaya.Pipelines
import Ecos.Logic.Machine

namespace Ecos.Alaya
open Moon Logic

inductive State where
  | INIT
  | READY
  | RUNNING
  | UPDATING
  | STOPPED
  deriving DecidableEq, Repr

/-- A `Raft` instance with what it was made from. -/
structure Raft where
  /-- the identity of the instance -/
  addr : ℕ
  pgID : UInt64
  pipeline : Pipeline
  peers : List UInt64
  /-- the arguments of `NewAlayaRaft` -/
  nowPipe : Pipeline
  oldP : Option Pipeline
  /-- how often `Run` was started -/
  runs : ℕ := 0
  deriving DecidableEq, Repr

def newAlayaRaft (addr : ℕ) (nowPipe : Pipeline) (oldP : Option Pipeline) : Raft where
  addr := addr
  pgID := nowPipe.pgId
  pipeline := nowPipe
  peers := match oldP with
    | some oldP => oldP.raftId
    | none => nowPipe.raftId
  nowPipe := nowPipe
  oldP := oldP

namespace Raft

def setPipeline (r : Raft) (p : Pipeline) : Raft :=
  if r.pipeline.clusterTerm < p.clusterTerm then { r with pipeline := p } else r

def proposeNewPipeline (r : Raft) (newP : Pipeline) : Raft := r.setPipeline newP

def run (r : Raft) : Raft := { r with runs := r.runs + 1 }

@[simp] theorem run_runs (r : Raft) : r.run.runs = r.runs + 1 := rfl

theorem proposeNewPipeline_eq (r : Raft) (p : Pipeline) :
    ∃ q, r.proposeNewPipeline p = { r with pipeline := q } := by
  unfold proposeNewPipeline setPipeline
  split
  · exact ⟨p, rfl⟩
  · exact ⟨r.pipeline, rfl⟩

end Raft

/-- `Alaya`. The maps are kept as the list of their keys and as the list of their values. -/
structure Node where
  selfID : UInt64
  pgMessageChans : List UInt64 := []
  pgRaftNode : List Raft := []
  state : State := .INIT
  clusterPipelines : Option ClusterPipelines := none
  /-- the number of `Raft` instances made -/
  made : ℕ := 0
  deriving DecidableEq, Repr

/-- What `Run` deletes of a raft node that has stopped, from `PGMessageChans` and `PGRaftNode`. -/
inductive Deletion where
  | chan (pgID : UInt64)
  | node (pgID : UInt64)
  deriving DecidableEq, Repr

def Deletion.pgID : Deletion → UInt64
  | chan pgID | node pgID => pgID

namespace Node

variable (select : Select)

def delete (a : Node) : Deletion → Node
  | .chan pgID => { a with pgMessageChans := a.pgMessageChans.filter fun pg => pg ≠ pgID }
  | .node pgID => { a with pgRaftNode := a.pgRaftNode.filter fun r => r.pgID ≠ pgID }

def makeAlayaRaftInPipeline (a : Node) (p : Pipeline) (oldP : Option Pipeline) : Node :=
  { a with
    pgMessageChans := if p.pgId ∈ a.pgMessageChans then a.pgMessageChans
      else p.pgId :: a.pgMessageChans
    pgRaftNode := newAlayaRaft a.made p oldP :: a.pgRaftNode.filter fun r => r.pgID ≠ p.pgId
    made := a.made + 1 }

/-- `Run` of the raft node of one group. -/
def runRaftNode (a : Node) (pgID : UInt64) : Node :=
  { a with pgRaftNode := a.pgRaftNode.map fun r => if r.pgID = pgID then r.run else r }

/-- The first part of `ApplyNewPipelines`: every raft node gets its new pipeline. -/
def proposeNewPipelines (a : Node) (pipelines : ClusterPipelines) : Option Node := do
  let rafts ← a.pgRaftNode.mapM fun r =>
    (pipelines.getMetaPipeline r.pgID).map r.proposeNewPipeline
  return { a with clusterPipelines := some pipelines, pgRaftNode := rafts }

/-- The pipeline that `makeAlayaRaftInPipeline` is given as the old one. -/
def oldPipeline (oldPipelines : Option ClusterPipelines) (pgID : UInt64) :
    Option (Option Pipeline) :=
  match oldPipelines with
  | none => some none
  | some old => (old.getMetaPipeline pgID).map some

def placePipeline (oldPipelines : Option ClusterPipelines) (a : Node) (p : Pipeline) :
    Option Node :=
  if a.selfID ∉ p.raftId then some a
  else if p.pgId ∈ a.pgMessageChans then some a
  else do
    let oldP ← oldPipeline oldPipelines p.pgId
    let a := a.makeAlayaRaftInPipeline p oldP
    return if a.state = .UPDATING then a.runRaftNode p.pgId else a

def applyNewPipelines (a : Node) (pipelines : ClusterPipelines)
    (oldPipelines : Option ClusterPipelines) : Option Node := do
  let a ← a.proposeNewPipelines pipelines
  pipelines.metaPipelines.foldlM (placePipeline oldPipelines) a

/-- The `oldPipelines` of `ApplyNewClusterInfo`. `byTerm` is `GetClusterInfoByTerm` without its
error, which is only logged, as the error of `NewClusterPipelines` is dropped. -/
def oldPipelines (a : Node) (byTerm : UInt64 → ClusterInfo) (clusterInfo : ClusterInfo) :
    Option ClusterPipelines :=
  if clusterInfo.lastTerm ≠ 0
  then (newClusterPipelines select (byTerm clusterInfo.lastTerm)).toOption
  else a.clusterPipelines

/-- `ApplyNewClusterInfo` up to the call of `ApplyNewPipelines`, whose arguments it returns;
`none` where it returns early. -/
def pipelinesOf (a : Node) (byTerm : UInt64 → ClusterInfo) (clusterInfo : ClusterInfo) :
    Option (ClusterPipelines × Option ClusterPipelines) :=
  if clusterInfo.nodesInfo.length = 0 then none
  else match newClusterPipelines select clusterInfo with
    | .error _ => none
    | .ok p => some (p, a.oldPipelines select byTerm clusterInfo)

def applyNewClusterInfo (a : Node) (byTerm : UInt64 → ClusterInfo) (clusterInfo : ClusterInfo) :
    Option Node :=
  let a := { a with state := .UPDATING }
  match a.pipelinesOf select byTerm clusterInfo with
  | none => some a
  | some (p, oldPipelines) => do
    let a ← a.applyNewPipelines p oldPipelines
    return { a with state := .RUNNING }

def newAlaya (selfID : UInt64) (byTerm : UInt64 → ClusterInfo) (clusterInfo : ClusterInfo) :
    Option Node := do
  let a ← applyNewClusterInfo select { selfID } byTerm clusterInfo
  return { a with state := .READY }

/-- `Run` up to its loop. -/
def run (a : Node) : Node :=
  { a with pgRaftNode := a.pgRaftNode.map Raft.run, state := .RUNNING }

variable {select}

/-- The raft nodes of `a'` are those of `a`, some with another pipeline. -/
def Kept (a a' : Node) : Prop :=
  ∀ r' ∈ a'.pgRaftNode, ∃ r ∈ a.pgRaftNode, ∃ q, r' = { r with pipeline := q }

theorem mem_of_mapM {α β : Type} {f : α → Option β} {xs : List α} {ys : List β}
    (h : xs.mapM f = some ys) {y : β} (hy : y ∈ ys) : ∃ x ∈ xs, f x = some y := by
  induction xs generalizing ys with
  | nil =>
    cases h
    simp at hy
  | cons x xs ih =>
    rw [List.mapM_cons] at h
    simp only [bind, Option.bind_eq_some_iff] at h
    obtain ⟨z, hz, zs, hzs, hys⟩ := h
    cases hys
    rcases List.mem_cons.mp hy with rfl | hy
    · exact ⟨x, List.mem_cons_self, hz⟩
    · obtain ⟨x', hx', hf⟩ := ih hzs hy
      exact ⟨x', List.mem_cons_of_mem x hx', hf⟩

theorem proposeNewPipelines_eq {a a' : Node} {pipelines : ClusterPipelines}
    (h : a.proposeNewPipelines pipelines = some a') :
    a' = { a with clusterPipelines := some pipelines, pgRaftNode := a'.pgRaftNode } ∧
      Kept a a' := by
  simp only [proposeNewPipelines, bind, Option.bind_eq_some_iff] at h
  obtain ⟨rafts, hrafts, ha⟩ := h
  cases ha
  refine ⟨rfl, fun r' hr' => ?_⟩
  obtain ⟨r, hr, hp⟩ := mem_of_mapM hrafts hr'
  obtain ⟨p, -, rfl⟩ := Option.map_eq_some_iff.mp hp
  exact ⟨r, hr, r.proposeNewPipeline_eq p⟩

/-- A round makes at most one raft node, and starts it while the state is `UPDATING`. -/
theorem placePipeline_cases {a a' : Node} {old : Option ClusterPipelines} {p : Pipeline}
    (h : placePipeline old a p = some a') :
    a' = a ∨
      ∃ oldP, oldPipeline old p.pgId = some oldP ∧ a.selfID ∈ p.raftId ∧
        p.pgId ∉ a.pgMessageChans ∧
        a' = if a.state = .UPDATING then (a.makeAlayaRaftInPipeline p oldP).runRaftNode p.pgId
          else a.makeAlayaRaftInPipeline p oldP := by
  unfold placePipeline at h
  split_ifs at h with hself hchan
  · exact Or.inl (Option.some.inj h).symm
  · simp only [bind, Option.bind_eq_some_iff] at h
    obtain ⟨oldP, hold, ha⟩ := h
    exact Or.inr ⟨oldP, hold, hself, hchan, (Option.some.inj ha).symm⟩
  · exact Or.inl (Option.some.inj h).symm

theorem mem_makeAlayaRaftInPipeline {a : Node} {p : Pipeline} {oldP : Option Pipeline} {r : Raft}
    (hr : r ∈ (a.makeAlayaRaftInPipeline p oldP).pgRaftNode) :
    r = newAlayaRaft a.made p oldP ∨ r ∈ a.pgRaftNode ∧ r.pgID ≠ p.pgId := by
  rcases List.mem_cons.mp hr with h | h
  · exact Or.inl h
  · rw [List.mem_filter, decide_eq_true_eq] at h
    exact Or.inr h

theorem mem_placed {a : Node} {p : Pipeline} {oldP : Option Pipeline} {r : Raft}
    (hr : r ∈ ((a.makeAlayaRaftInPipeline p oldP).runRaftNode p.pgId).pgRaftNode) :
    r = (newAlayaRaft a.made p oldP).run ∨ r ∈ a.pgRaftNode := by
  obtain ⟨r₀, hr₀, rfl⟩ := List.mem_map.mp hr
  rcases mem_makeAlayaRaftInPipeline hr₀ with rfl | ⟨hmem, hne⟩
  · exact Or.inl (if_pos rfl)
  · rw [if_neg hne]
    exact Or.inr hmem

theorem oldPipeline_eq_none {old : Option ClusterPipelines} {pgID : UInt64}
    (h : oldPipeline old pgID = some none) : old = none := by
  unfold oldPipeline at h
  split at h
  · rfl
  · simp at h

/-- The raft node was made for one of these pipelines, which the node had no channel for. -/
def Made (a : Node) (ps : List Pipeline) (old : Option ClusterPipelines) (r : Raft) : Prop :=
  r.nowPipe ∈ ps ∧ a.selfID ∈ r.nowPipe.raftId ∧ r.nowPipe.pgId ∉ a.pgMessageChans ∧
    oldPipeline old r.nowPipe.pgId = some r.oldP

/-- What the rounds up to now have made out of the node `a`. -/
structure Placing (a : Node) (ps : List Pipeline) (old : Option ClusterPipelines) (b : Node) :
    Prop where
  selfID : b.selfID = a.selfID
  chans : a.pgMessageChans ⊆ b.pgMessageChans
  rafts : ∀ r ∈ b.pgRaftNode, r ∈ a.pgRaftNode ∨ Made a ps old r

theorem placing_step {a b b' : Node} {ps : List Pipeline} {old : Option ClusterPipelines}
    {p : Pipeline} (hb : Placing a ps old b) (hp : p ∈ ps) (h : placePipeline old b p = some b') :
    Placing a ps old b' := by
  rcases placePipeline_cases h with rfl | ⟨oldP, hold, hself, hchan, rfl⟩
  · exact hb
  · have hmade : ∀ r : Raft, r.nowPipe = p → r.oldP = oldP → Made a ps old r := by
      rintro r rfl rfl
      exact ⟨hp, hb.selfID ▸ hself, fun hmem => hchan (hb.chans hmem), hold⟩
    have hchans : a.pgMessageChans ⊆ (b.makeAlayaRaftInPipeline p oldP).pgMessageChans := by
      intro pg hpg
      simp only [makeAlayaRaftInPipeline, if_neg hchan]
      exact List.mem_cons_of_mem _ (hb.chans hpg)
    split_ifs
    · refine ⟨hb.selfID, hchans, fun r hr => ?_⟩
      rcases mem_placed hr with rfl | hmem
      · exact Or.inr (hmade _ rfl rfl)
      · exact hb.rafts r hmem
    · refine ⟨hb.selfID, hchans, fun r hr => ?_⟩
      rcases mem_makeAlayaRaftInPipeline hr with rfl | ⟨hmem, -⟩
      · exact Or.inr (hmade _ rfl rfl)
      · exact hb.rafts r hmem

theorem placing_foldlM {a b : Node} {ps : List Pipeline} {old : Option ClusterPipelines}
    (h : ps.foldlM (placePipeline old) a = some b) : Placing a ps old b :=
  run_invariant (I := Placing a ps old) (G := fun _ p => p ∈ ps)
    (fun _ _ _ hI hp hstep => placing_step hI hp hstep)
    ⟨rfl, List.Subset.refl _, fun _ hr => Or.inl hr⟩
    (meets_of_forall (fun _ hp _ => hp) a) h

theorem pipelinesOf_eq_some {a : Node} {byTerm : UInt64 → ClusterInfo} {info : ClusterInfo}
    {p : ClusterPipelines} {old : Option ClusterPipelines}
    (h : a.pipelinesOf select byTerm info = some (p, old)) :
    newClusterPipelines select info = .ok p ∧ old = a.oldPipelines select byTerm info := by
  unfold pipelinesOf at h
  split_ifs at h
  split at h
  · cases h
  · rename_i hok
    cases h
    exact ⟨hok, rfl⟩

/-- An update keeps the node's ID; a raft node it leaves was there before or was made for a
pipeline of the new info. -/
theorem applyNewClusterInfo_spec {a a' : Node} {byTerm : UInt64 → ClusterInfo} {info : ClusterInfo}
    (h : a.applyNewClusterInfo select byTerm info = some a') :
    a'.selfID = a.selfID ∧ ∀ r ∈ a'.pgRaftNode,
      (∃ r₀ ∈ a.pgRaftNode, ∃ q, r = { r₀ with pipeline := q }) ∨
        Enough select info ∧
          Made a (genMetaPipelines select info) (a.oldPipelines select byTerm info) r := by
  simp only [applyNewClusterInfo] at h
  split at h
  · cases h
    exact ⟨rfl, fun r hr => Or.inl ⟨r, hr, r.pipeline, rfl⟩⟩
  · rename_i p old hp
    simp only [applyNewPipelines, bind, Option.bind_eq_some_iff] at h
    obtain ⟨c, ⟨b, hb, hc⟩, hac⟩ := h
    cases hac
    obtain ⟨hcp, rfl⟩ := pipelinesOf_eq_some hp
    have hp := newClusterPipelines_eq hcp
    obtain ⟨hb, hkept⟩ := proposeNewPipelines_eq hb
    have hplacing := placing_foldlM hc
    rw [hp] at hplacing
    refine ⟨hplacing.selfID.trans (by rw [hb]), fun r hr => ?_⟩
    rcases hplacing.rafts r hr with hmem | hmade
    · exact Or.inl (hkept r hmem)
    · rw [hb] at hmade
      exact Or.inr ⟨⟨p, hcp⟩, hmade⟩

end Node

end Ecos.Alaya
