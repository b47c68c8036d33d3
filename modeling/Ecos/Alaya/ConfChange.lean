import Ecos.Alaya.Pipelines
import Ecos.Logic.Machine
import Ecos.RaftNode

namespace Ecos.Alaya
open Logic

/-- `raftpb.ConfChange`, its context decoded and `none` where it is empty. A pipeline of a group
has a `PgId`, so it does not marshal to the empty string. -/
structure PipelineChange where
  type : Raft.ConfChangeType
  nodeID : UInt64
  context : Option Pipeline
  deriving DecidableEq, Repr

/-- A registration in `wait.Wait`: the ID and the number of the call that registered it. -/
structure Waiter where
  id : UInt64
  call : ℕ
  deriving DecidableEq, Repr

inductive Control where
  | sleeping
  /-- `ProposeNewNodes`, with the nodes to be removed afterwards -/
  | newNodes (ids needRemove : List UInt64)
  /-- `for !r.findVoter(id)` -/
  | findNew (id : UInt64) (data : Pipeline) (ids needRemove : List UInt64)
  | removeNodes (ids : List UInt64)
  | removeNext (data : Pipeline) (ids : List UInt64) (removeSelf : Bool)
  /-- `for r.findVoter(id)` -/
  | findOld (id : UInt64) (data : Pipeline) (ids : List UInt64) (removeSelf : Bool)
  /-- `<-ch` of a call, with where it goes on -/
  | waiting (w : Waiter) (next : Control)
  deriving DecidableEq, Repr

structure Replica where
  id : UInt64
  pipeline : Pipeline
  registered : List Waiter := []
  /-- calls of `Register` so far -/
  calls : ℕ := 0
  /-- changes that raft has accepted from this replica, each with its call -/
  inFlight : List (PipelineChange × ℕ) := []
  /-- the waiters whose changes `CheckConfChange` has gone through -/
  processed : List Waiter := []
  control : Control := .sleeping
  panicked : Bool := false
  stopped : Bool := false
  deriving DecidableEq, Repr

structure Surroundings where
  /-- the node asked for is a voter -/
  voter : Bool
  /-- `ProposeConfChange` returns nil -/
  accepted : Bool
  ctxDone : Bool
  deriving DecidableEq, Repr

namespace Replica

def setPipeline (r : Replica) (p : Pipeline) : Replica :=
  if r.pipeline.clusterTerm < p.clusterTerm then { r with pipeline := p } else r

def proposeNewPipeline (r : Replica) (newP : Pipeline) : Replica := r.setPipeline newP

def isRegistered (r : Replica) (id : UInt64) : Bool := r.registered.any fun w => w.id = id

def trigger (r : Replica) (id : UInt64) : Replica :=
  { r with registered := r.registered.filter fun w => w.id ≠ id }

/-- The end of `CheckConfChange`. -/
def stopIfRemoved (r : Replica) (change : PipelineChange) : Replica :=
  if change.nodeID = r.id ∧ change.type = .removeNode then { r with stopped := true } else r

def checkConfChange (r : Replica) (change : PipelineChange) : Replica :=
  match change.context with
  | none => r.stopIfRemoved change
  | some p =>
    let r := r.setPipeline p
    if p.clusterTerm < r.pipeline.clusterTerm then r
    else (r.trigger change.nodeID).stopIfRemoved change

/-- `Register` and `ProposeConfChange`, as in `addNode` and `removeNode`. A second registration of
an ID panics; after an error the waiter stays registered. -/
def propose (r : Replica) (type : Raft.ConfChangeType) (id : UInt64) (data : Pipeline)
    (accepted : Bool) (next onError : Control) : Replica :=
  if r.isRegistered id then { r with panicked := true }
  else
    let r' := { r with registered := ⟨id, r.calls⟩ :: r.registered, calls := r.calls + 1 }
    if accepted then
      { r' with
        inFlight := r.inFlight ++ [(⟨type, id, some data⟩, r.calls)]
        control := .waiting ⟨id, r.calls⟩ next }
    else { r' with control := onError }

def advance (r : Replica) (env : Surroundings) : Option Replica :=
  match r.control with
  | .sleeping => none
  | .newNodes [] needRemove => some { r with control := .removeNodes needRemove }
  | .newNodes (id :: ids) needRemove =>
    some { r with control := .findNew id r.pipeline ids needRemove }
  | .findNew id data ids needRemove =>
    if env.voter then some { r with control := .newNodes ids needRemove }
    else
      let retry := .findNew id data ids needRemove
      some (r.propose .addNode id data env.accepted retry retry)
  | .removeNodes ids =>
    if env.ctxDone ∨ ids = [] then some { r with control := .sleeping }
    else some { r with control := .removeNext r.pipeline ids false }
  | .removeNext data [] removeSelf =>
    -- the error of this proposal is ignored, and the loop waits all the same
    if removeSelf then
      some (r.propose .removeNode r.id data env.accepted .sleeping (.waiting ⟨r.id, r.calls⟩ .sleeping))
    else some { r with control := .sleeping }
  | .removeNext data (id :: ids) removeSelf =>
    if id = r.id then some { r with control := .removeNext data ids true }
    else
      let check := .findOld id data ids removeSelf
      some (r.propose .removeNode id data env.accepted check check)
  | .findOld id data ids removeSelf =>
    if env.voter then
      let check := .findOld id data ids removeSelf
      some (r.propose .removeNode id data env.accepted check check)
    else some { r with control := .removeNext data ids removeSelf }
  | .waiting w next => if w ∈ r.registered then none else some { r with control := next }

inductive Action where
  /-- the leader's loop wakes up and finds these nodes to add and to remove -/
  | wake (needAdd needRemove : List UInt64)
  | advance (env : Surroundings)
  | proposeNewPipeline (p : Pipeline)
  /-- the `i`-th change in flight has been applied -/
  | check (i : ℕ)
  /-- a change that another replica proposed has been applied -/
  | checkOther (change : PipelineChange)
  deriving DecidableEq, Repr

/-- The `i`-th change in flight goes through `CheckConfChange`. -/
def checkInFlight (r : Replica) (i : ℕ) : Option Replica := do
  let c ← r.inFlight[i]?
  let r := { r with inFlight := r.inFlight.eraseIdx i }.checkConfChange c.1
  return { r with processed := ⟨c.1.nodeID, c.2⟩ :: r.processed }

def act (r : Replica) : Action → Option Replica
  | .wake needAdd needRemove =>
    if r.control = .sleeping then some { r with control := .newNodes needAdd needRemove } else none
  | .advance env => r.advance env
  | .proposeNewPipeline p => some (r.proposeNewPipeline p)
  | .check i => r.checkInFlight i
  | .checkOther change => some (r.checkConfChange change)

def step (r : Replica) (a : Action) : Option Replica := if r.panicked then none else r.act a

/-- No ID was registered twice, and no waiter is left whose change has gone through
`CheckConfChange`. -/
def Disciplined (r : Replica) : Prop :=
  r.panicked = false ∧ ∀ w ∈ r.processed, w ∉ r.registered

instance (r : Replica) : Decidable r.Disciplined := instDecidableAnd

def Stale (r : Replica) (change : PipelineChange) : Prop :=
  ∃ p ∈ change.context, p.clusterTerm < r.pipeline.clusterTerm

instance (r : Replica) (change : PipelineChange) : Decidable (r.Stale change) :=
  inferInstanceAs (Decidable (∃ p ∈ change.context, _))

/-- `ProposeConfChange` succeeds, and a change in flight is not stale when it is checked while its
caller waits. -/
def InTime (r : Replica) : Action → Prop
  | .advance env => env.accepted = true
  | .check i => ∀ c ∈ r.inFlight[i]?, ⟨c.1.nodeID, c.2⟩ ∈ r.registered → ¬r.Stale c.1
  | _ => True

instance (r : Replica) (a : Action) : Decidable (r.InTime a) := by
  unfold InTime
  split <;> infer_instance

theorem setPipeline_eq (r : Replica) (p : Pipeline) :
    ∃ q, r.setPipeline p = { r with pipeline := q } ∧
      (p.clusterTerm < q.clusterTerm ↔ p.clusterTerm < r.pipeline.clusterTerm) := by
  unfold setPipeline
  split_ifs with h
  · refine ⟨p, rfl, iff_of_false (UInt64.lt_irrefl _) (UInt64.lt_asymm h)⟩
  · exact ⟨r.pipeline, rfl, Iff.rfl⟩

theorem stopIfRemoved_eq (r : Replica) (change : PipelineChange) :
    ∃ st, r.stopIfRemoved change = { r with stopped := st } := by
  unfold stopIfRemoved
  split_ifs
  · exact ⟨true, rfl⟩
  · exact ⟨r.stopped, rfl⟩

/-- A change is checked without releasing anybody where it has no context or an outdated one;
otherwise the waiters for its node are released. -/
theorem checkConfChange_cases (r : Replica) (change : PipelineChange) :
    (∃ q st, r.checkConfChange change = { r with pipeline := q, stopped := st } ∧
      ∀ p ∈ change.context, p.clusterTerm < r.pipeline.clusterTerm) ∨
    ∃ q st, r.checkConfChange change =
      { r.trigger change.nodeID with pipeline := q, stopped := st } := by
  unfold checkConfChange
  split
  · rename_i hnone
    obtain ⟨st, hst⟩ := r.stopIfRemoved_eq change
    exact Or.inl ⟨r.pipeline, st, hst, by simp [hnone]⟩
  · rename_i p hp
    obtain ⟨q, hq, hiff⟩ := r.setPipeline_eq p
    simp only [hq]
    split_ifs with hlt
    · refine Or.inl ⟨q, r.stopped, rfl, fun p' hp' => ?_⟩
      rw [hp] at hp'
      exact Option.some.inj hp' ▸ hiff.mp hlt
    · obtain ⟨st, hst⟩ := ({ r with pipeline := q }.trigger change.nodeID).stopIfRemoved_eq change
      exact Or.inr ⟨q, st, hst⟩

/-- The control loop goes on, past a channel only when it is closed, or it proposes a change. -/
theorem advance_cases {r r' : Replica} {env : Surroundings} (h : r.advance env = some r') :
    ((∃ c, r' = { r with control := c }) ∧
      ∀ w next, r.control = .waiting w next → w ∉ r.registered) ∨
    (∀ w next, r.control ≠ .waiting w next) ∧
      ∃ type id data next onError, r' = r.propose type id data env.accepted next onError := by
  unfold advance at h
  cases hc : r.control with
  | sleeping => simp [hc] at h
  | newNodes ids needRemove =>
    cases ids <;> simp only [hc, Option.some.injEq] at h <;> exact Or.inl ⟨⟨_, h.symm⟩, by simp⟩
  | findNew id data ids needRemove =>
    simp only [hc] at h
    split_ifs at h <;> cases h
    · exact Or.inl ⟨⟨_, rfl⟩, by simp⟩
    · exact Or.inr ⟨by simp, _, _, _, _, _, rfl⟩
  | removeNodes ids =>
    simp only [hc] at h
    split_ifs at h <;> cases h <;> exact Or.inl ⟨⟨_, rfl⟩, by simp⟩
  | removeNext data ids removeSelf =>
    cases ids with
    | nil =>
      simp only [hc] at h
      split_ifs at h <;> cases h
      · exact Or.inr ⟨by simp, _, _, _, _, _, rfl⟩
      · exact Or.inl ⟨⟨_, rfl⟩, by simp⟩
    | cons id ids =>
      simp only [hc] at h
      split_ifs at h <;> cases h
      · exact Or.inl ⟨⟨_, rfl⟩, by simp⟩
      · exact Or.inr ⟨by simp, _, _, _, _, _, rfl⟩
  | findOld id data ids removeSelf =>
    simp only [hc] at h
    split_ifs at h <;> cases h
    · exact Or.inr ⟨by simp, _, _, _, _, _, rfl⟩
    · exact Or.inl ⟨⟨_, rfl⟩, by simp⟩
  | waiting w next =>
    simp only [hc] at h
    split_ifs at h with hw
    cases h
    exact Or.inl ⟨⟨_, rfl⟩, by simpa using hw⟩

structure Sound (r : Replica) : Prop where
  calm : r.panicked = false
  waits : ∀ w ∈ r.registered, ∃ next, r.control = .waiting w next
  released : ∀ w ∈ r.processed, w ∉ r.registered
  processed_lt : ∀ w ∈ r.processed, w.call < r.calls
  inFlight_lt : ∀ c ∈ r.inFlight, c.2 < r.calls ∧ c.1.context ≠ none

theorem Sound.registered_eq_nil {r : Replica} (hr : r.Sound)
    (hc : ∀ w next, r.control ≠ .waiting w next) : r.registered = [] := by
  rw [List.eq_nil_iff_forall_not_mem]
  intro w hw
  obtain ⟨next, hnext⟩ := hr.waits w hw
  exact hc w next hnext

theorem Sound.goto {r : Replica} (hr : r.Sound) (hreg : r.registered = []) (c : Control) :
    { r with control := c }.Sound :=
  ⟨hr.calm, by simp [hreg], hr.released, hr.processed_lt, hr.inFlight_lt⟩

theorem Sound.setPipeline {r : Replica} (hr : r.Sound) (p : Pipeline) : (r.setPipeline p).Sound := by
  obtain ⟨q, hq, -⟩ := r.setPipeline_eq p
  rw [hq]
  exact ⟨hr.calm, hr.waits, hr.released, hr.processed_lt, hr.inFlight_lt⟩

/-- A proposal that raft accepts while nobody is registered. -/
theorem Sound.propose {r : Replica} (hr : r.Sound) (hreg : r.registered = [])
    (type : Raft.ConfChangeType) (id : UInt64) (data : Pipeline) (next onError : Control) :
    (r.propose type id data true next onError).Sound := by
  have hnot : r.isRegistered id = false := by simp [isRegistered, hreg]
  simp only [Replica.propose, hnot, if_true, Bool.false_eq_true, if_false, hreg]
  refine ⟨hr.calm, ?_, ?_, ?_, ?_⟩
  · intro w hw
    rw [List.mem_singleton.mp hw]
    exact ⟨next, rfl⟩
  · intro w hw hmem
    rw [List.mem_singleton.mp hmem] at hw
    exact Nat.lt_irrefl _ (hr.processed_lt _ hw)
  · exact fun w hw => Nat.lt_succ_of_lt (hr.processed_lt w hw)
  · intro c hc
    rcases List.mem_append.mp hc with hc | hc
    · exact ⟨Nat.lt_succ_of_lt (hr.inFlight_lt c hc).1, (hr.inFlight_lt c hc).2⟩
    · rw [List.mem_singleton.mp hc]
      exact ⟨Nat.lt_succ_self _, by simp⟩

theorem Sound.advance {r r' : Replica} (hr : r.Sound) {env : Surroundings}
    (henv : env.accepted = true) (h : r.advance env = some r') : r'.Sound := by
  rcases advance_cases h with ⟨⟨c, rfl⟩, hw⟩ | ⟨hc, type, id, data, next, onError, rfl⟩
  · refine hr.goto ?_ c
    rw [List.eq_nil_iff_forall_not_mem]
    intro w hmem
    obtain ⟨next, hnext⟩ := hr.waits w hmem
    exact hw w next hnext hmem
  · rw [henv]
    exact hr.propose (hr.registered_eq_nil hc) type id data next onError

theorem Sound.trigger {r : Replica} (hr : r.Sound) (id : UInt64) : (r.trigger id).Sound :=
  ⟨hr.calm, fun w hw => hr.waits w (List.mem_of_mem_filter hw),
    fun w hw hmem => hr.released w hw (List.mem_of_mem_filter hmem), hr.processed_lt, hr.inFlight_lt⟩

theorem Sound.checkConfChange {r : Replica} (hr : r.Sound) (change : PipelineChange) :
    (r.checkConfChange change).Sound := by
  rcases r.checkConfChange_cases change with ⟨q, st, h, -⟩ | ⟨q, st, h⟩
  · rw [h]
    exact ⟨hr.calm, hr.waits, hr.released, hr.processed_lt, hr.inFlight_lt⟩
  · have ht := hr.trigger change.nodeID
    rw [h]
    exact ⟨ht.calm, ht.waits, ht.released, ht.processed_lt, ht.inFlight_lt⟩

/-- A change that is checked in time leaves its waiter released. -/
theorem not_mem_registered {r : Replica} {change : PipelineChange} {call : ℕ}
    (hne : change.context ≠ none)
    (hg : ⟨change.nodeID, call⟩ ∈ r.registered → ¬r.Stale change) :
    ⟨change.nodeID, call⟩ ∉ (r.checkConfChange change).registered := by
  rcases r.checkConfChange_cases change with ⟨q, st, h, hold⟩ | ⟨q, st, h⟩
  · obtain ⟨p, hp⟩ := Option.ne_none_iff_exists'.mp hne
    rw [h]
    exact fun hmem => hg hmem ⟨p, hp, hold p hp⟩
  · rw [h]
    simp [trigger]

theorem checkConfChange_calls (r : Replica) (change : PipelineChange) :
    (r.checkConfChange change).calls = r.calls := by
  rcases r.checkConfChange_cases change with ⟨q, st, h, -⟩ | ⟨q, st, h⟩
  · rw [h]
  · rw [h, trigger]

theorem Sound.checkInFlight {r r' : Replica} (hr : r.Sound) {i : ℕ} (hg : r.InTime (.check i))
    (h : r.checkInFlight i = some r') : r'.Sound := by
  simp only [Replica.checkInFlight, bind, Option.bind_eq_some_iff] at h
  obtain ⟨c, hi, hr'⟩ := h
  cases hr'
  obtain ⟨hlt, hne⟩ := hr.inFlight_lt c (List.mem_of_getElem? hi)
  have hr₀ : { r with inFlight := r.inFlight.eraseIdx i }.Sound :=
    ⟨hr.calm, hr.waits, hr.released, hr.processed_lt,
      fun c hc => hr.inFlight_lt c (List.mem_of_mem_eraseIdx hc)⟩
  have hc := hr₀.checkConfChange c.1
  refine ⟨hc.calm, hc.waits, ?_, ?_, hc.inFlight_lt⟩
  · intro w hw
    rcases List.mem_cons.mp hw with rfl | hw
    · exact not_mem_registered hne (hg c hi)
    · exact hc.released w hw
  · intro w hw
    rcases List.mem_cons.mp hw with rfl | hw
    · exact (checkConfChange_calls _ c.1).symm ▸ hlt
    · exact hc.processed_lt w hw

theorem sound_step {r r' : Replica} {a : Action} (hr : r.Sound) (hg : r.InTime a)
    (h : step r a = some r') : r'.Sound := by
  rw [step, hr.calm, if_neg Bool.false_ne_true] at h
  cases a with
  | wake needAdd needRemove =>
    simp only [act] at h
    split_ifs at h with hc
    cases h
    exact hr.goto (hr.registered_eq_nil (by simp [hc])) _
  | advance env => exact hr.advance hg h
  | proposeNewPipeline p =>
    cases h
    exact hr.setPipeline p
  | check i => exact hr.checkInFlight hg h
  | checkOther change =>
    cases h
    exact hr.checkConfChange change

def new (id : UInt64) (pipeline : Pipeline) : Replica := { id, pipeline }

theorem sound_new (id : UInt64) (pipeline : Pipeline) : (new id pipeline).Sound where
  calm := rfl
  waits := by simp [new]
  released := by simp [new]
  processed_lt := by simp [new]
  inFlight_lt := by simp [new]

/-- In every run in which `ProposeConfChange` does not fail and no change is stale when it is
checked while its caller waits, no waiter is left behind and `Register` never panics. -/
theorem disciplined_of_inTime (id : UInt64) (pipeline : Pipeline) (actions : List Action)
    {r : Replica} (hg : Meets step InTime (new id pipeline) actions)
    (hr : Logic.run step (new id pipeline) actions = some r) : r.Disciplined := by
  have hsound := run_invariant (fun _ _ _ hr hg h => sound_step hr hg h) (sound_new id pipeline) hg hr
  exact ⟨hsound.calm, hsound.released⟩

def pipelineOfTerm (term : UInt64) : Pipeline where
  pgId := 1
  raftId := [1, 2, 3]
  clusterTerm := term

def addThree : List Action :=
  [.wake [3] [], .advance ⟨false, true, false⟩, .advance ⟨false, true, false⟩, .check 0,
    .advance ⟨false, true, false⟩]

theorem disciplined_of_inTime_addThree :
    ∃ r, Logic.run step (new 1 (pipelineOfTerm 1)) addThree = some r ∧
      r.processed = [⟨3, 0⟩] ∧ r.Disciplined :=
  ⟨_, rfl, by decide, disciplined_of_inTime 1 (pipelineOfTerm 1) addThree (by decide) rfl⟩

/-- A new pipeline arrives between the proposal and the application: the waiter is not released.
A proposal fails and is tried again: `Register` panics. -/
theorem waiter_left_and_register_panics :
    (∃ r, Logic.run step (new 1 (pipelineOfTerm 1))
        [.wake [3] [], .advance ⟨false, true, false⟩, .advance ⟨false, true, false⟩,
          .proposeNewPipeline (pipelineOfTerm 2), .check 0] = some r ∧
      r.panicked = false ∧ ⟨3, 0⟩ ∈ r.processed ∧ ⟨3, 0⟩ ∈ r.registered ∧ ¬ r.Disciplined) ∧
    ∃ r, Logic.run step (new 1 (pipelineOfTerm 1))
        [.wake [3] [], .advance ⟨false, true, false⟩, .advance ⟨false, false, false⟩,
          .advance ⟨false, true, false⟩] = some r ∧
      r.panicked = true ∧ ¬ r.Disciplined :=
  ⟨⟨_, rfl, by decide⟩, _, rfl, by decide⟩

end Replica

end Ecos.Alaya
