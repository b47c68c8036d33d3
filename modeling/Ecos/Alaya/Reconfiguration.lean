import Ecos.Alaya.ConfChange
import Ecos.Logic.Changes

namespace Ecos.Alaya
open Logic

/-- The two differences of `calDiff`. The lists it returns are these sets in the order in which
`Iter` comes upon their members. -/
def calDiff (a b : List UInt64) : Finset UInt64 × Finset UInt64 :=
  (a.toFinset \ b.toFinset, b.toFinset \ a.toFinset)

/-- An order in which `Iter` can return the members of a set. -/
def Iterates (ids : List UInt64) (s : Finset UInt64) : Prop := ids.Nodup ∧ ids.toFinset = s

theorem Iterates.mem_iff {ids : List UInt64} {s : Finset UInt64} (h : Iterates ids s)
    (id : UInt64) : id ∈ ids ↔ id ∈ s := by
  rw [← h.2, List.mem_toFinset]

/-- What `ApplyConfChange` does to the voters. A voter that is added as a learner is no voter any
more. -/
def applyConfChange (voters : Finset UInt64) (change : PipelineChange) : Finset UInt64 :=
  match change.type with
  | .addNode => insert change.nodeID voters
  | .removeNode => voters.erase change.nodeID
  | .updateNode => voters
  | .addLearnerNode => voters.erase change.nodeID

structure RaftGroup where
  replica : Replica
  voters : Finset UInt64
  /-- the voters after each change that was applied -/
  history : List (Finset UInt64) := []
  deriving DecidableEq

inductive RoundAction where
  /-- the control loop does its next step -/
  | advance
  /-- the `i`-th change in flight is applied -/
  | apply (i : ℕ)
  | proposeNewPipeline (p : Pipeline)
  deriving DecidableEq, Repr

namespace RaftGroup

def findVoter (g : RaftGroup) (id : UInt64) : Bool := id ∈ g.voters

/-- What the control loop finds: `findVoter` tells the voters, proposals are accepted and the
context of the replica is not done. -/
def surroundings (g : RaftGroup) : Surroundings where
  voter := match g.replica.control with
    | .findNew id _ _ _ => g.findVoter id
    | .findOld id _ _ _ => g.findVoter id
    | _ => false
  accepted := true
  ctxDone := false

def step (g : RaftGroup) : RoundAction → Option RaftGroup
  | .advance => do
    let r ← g.replica.step (.advance g.surroundings)
    return { g with replica := r }
  | .apply i => do
    let c ← g.replica.inFlight[i]?
    -- the voters change before `ApplyConfChangeC` hands the change to `CheckConfChange`
    let voters := applyConfChange g.voters c.1
    let r ← g.replica.step (.check i)
    return ⟨r, voters, g.history ++ [voters]⟩
  | .proposeNewPipeline p => do
    let r ← g.replica.step (.proposeNewPipeline p)
    return { g with replica := r }

/-- A reconfiguration of the voters `V` to the nodes `P` under a leader: nodes are added one by
one and then removed one by one, no voter leaves before all nodes of `P` are there, none of these
leaves later, and the leader is a voter in all sets but the last. -/
structure Safe (V P : Finset UInt64) (leader : UInt64) (history : List (Finset UInt64)) : Prop where
  oneByOne : (V :: history).IsChain OneApart
  phases : ∃ additions later, history = additions ++ later ∧
    (V :: additions).IsChain Adds ∧ (additions.getLastD V :: later).IsChain Removes ∧
    (∀ s ∈ additions, V ⊆ s) ∧ ∀ s ∈ later, P ⊆ s
  ends : history.getLastD V = P
  leaderLast : ∀ s ∈ (V :: history).dropLast, leader ∈ s

/-- The order in which `ProposeRemoveNodes` removes nodes. -/
def removalOrder (leader : UInt64) (ids : List UInt64) (removeSelf : Bool) : List UInt64 :=
  ids.filter (· ≠ leader) ++ if removeSelf ∨ leader ∈ ids then [leader] else []

def removals (leader : UInt64) (ids : List UInt64) (removeSelf : Bool) : List (Change UInt64) :=
  (removalOrder leader ids removeSelf).map .remove

def plan (leader : UInt64) (needAdd needRemove : List UInt64) : List (Change UInt64) :=
  needAdd.map .add ++ removals leader needRemove false

theorem mem_removalOrder (leader id : UInt64) (ids : List UInt64) :
    id ∈ removalOrder leader ids false ↔ id ∈ ids := by
  by_cases hid : id = leader
  · subst hid
    by_cases hmem : id ∈ ids <;> simp [removalOrder, hmem]
  · by_cases hmem : leader ∈ ids <;> simp [removalOrder, hid, hmem]

theorem nodup_removalOrder (leader : UInt64) {ids : List UInt64} (hids : ids.Nodup) :
    (removalOrder leader ids false).Nodup := by
  by_cases hmem : leader ∈ ids
  · simp [removalOrder, hmem, List.nodup_append, hids.filter]
  · simp [removalOrder, hmem, hids.filter]

/-- The leader's removal is the last change of the plan or no change of it. -/
theorem leader_mem_of_mem_dropLast {voters : Finset UInt64} {leader : UInt64}
    (hleader : leader ∈ voters) {needAdd needRemove : List UInt64} {s : Finset UInt64}
    (hs : s ∈ (voters :: Change.visited voters (plan leader needAdd needRemove)).dropLast) :
    leader ∈ s := by
  -- all changes but the leader's own removal
  obtain ⟨before, hbefore⟩ : ∃ before, before = needAdd.map Change.add ++
    (needRemove.filter (· ≠ leader)).map Change.remove := ⟨_, rfl⟩
  have hkeep : Change.remove leader ∉ before := by simp [hbefore]
  have hall : ∀ s ∈ voters :: Change.visited voters before, leader ∈ s := by
    intro s hs
    rcases List.mem_cons.mp hs with rfl | hs
    · exact hleader
    · exact Change.mem_of_mem_visited hkeep hleader hs
  by_cases hmem : leader ∈ needRemove
  · have hplan : plan leader needAdd needRemove = before ++ [.remove leader] := by
      simp [plan, removals, removalOrder, hmem, hbefore]
    rw [hplan, Change.visited_append, ← List.cons_append, Change.visited, Change.visited,
      List.dropLast_concat] at hs
    exact hall s hs
  · have hplan : plan leader needAdd needRemove = before := by
      simp [plan, removals, removalOrder, hmem, hbefore]
    rw [hplan] at hs
    exact hall s (List.mem_of_mem_dropLast hs)

section Plan

variable {V P needAdd needRemove : List UInt64}

theorem result_additions (hadd : Iterates needAdd (calDiff P V).1) :
    Change.result V.toFinset (needAdd.map .add) = V.toFinset ∪ P.toFinset := by
  rw [Change.result_add, hadd.2]
  exact Finset.union_sdiff_self_eq_union

theorem mem_removals (hremove : Iterates needRemove (calDiff P V).2) (leader id : UInt64) :
    id ∈ removalOrder leader needRemove false ↔ id ∈ V.toFinset ∧ id ∉ P.toFinset := by
  rw [mem_removalOrder, hremove.mem_iff]
  exact Finset.mem_sdiff

variable (hadd : Iterates needAdd (calDiff P V).1) (hremove : Iterates needRemove (calDiff P V).2)
include hadd hremove

theorem result_plan (leader : UInt64) :
    Change.result V.toFinset (plan leader needAdd needRemove) = P.toFinset := by
  have happend : Change.result V.toFinset (plan leader needAdd needRemove) =
      Change.result (Change.result V.toFinset (needAdd.map .add))
        (removals leader needRemove false) := List.foldl_append
  rw [happend, result_additions hadd, removals, Change.result_remove]
  ext id
  have horder : id ∈ (removalOrder leader needRemove false).toFinset ↔
      id ∈ V.toFinset ∧ id ∉ P.toFinset :=
    List.mem_toFinset.trans (mem_removals hremove leader id)
  rw [Finset.mem_sdiff, Finset.mem_union, horder]
  tauto

theorem allEffective_plan (leader : UInt64) :
    Change.AllEffective V.toFinset (plan leader needAdd needRemove) := by
  refine (Change.allEffective_append _ _ _).mpr ⟨?_, ?_⟩
  · refine Change.allEffective_add hadd.1 fun id hid => ?_
    exact (Finset.mem_sdiff.mp ((hadd.mem_iff id).mp hid)).2
  · rw [result_additions hadd]
    refine Change.allEffective_remove (nodup_removalOrder leader hremove.1) fun id hid => ?_
    exact Finset.mem_union_left _ ((mem_removals hremove leader id).mp hid).1

theorem safe_plan {leader : UInt64} (hleader : leader ∈ V) :
    Safe V.toFinset P.toFinset leader
      (Change.visited V.toFinset (plan leader needAdd needRemove)) := by
  have heff := allEffective_plan hadd hremove leader
  obtain ⟨haddEff, hremoveEff⟩ := (Change.allEffective_append _ _ _).mp heff
  refine ⟨Change.isChain_visited (fun c _ s h => c.oneApart h) heff,
    ⟨_, _, Change.visited_append _ _ _, ?_, ?_, ?_, ?_⟩, ?_, ?_⟩
  · refine Change.isChain_visited (fun c hc s h => ?_) haddEff
    obtain ⟨id, -, rfl⟩ := List.mem_map.mp hc
    exact ⟨id, h, rfl⟩
  · rw [Change.getLastD_visited]
    refine Change.isChain_visited (fun c hc s h => ?_) hremoveEff
    obtain ⟨id, -, rfl⟩ := List.mem_map.mp hc
    exact ⟨id, h, rfl⟩
  · intro s hs id hid
    exact Change.mem_of_mem_visited (by simp) hid hs
  · intro s hs id hid
    rw [result_additions hadd] at hs
    refine Change.mem_of_mem_visited (fun hin => ?_) (Finset.mem_union_right _ hid) hs
    obtain ⟨id', hin, heq⟩ := List.mem_map.mp hin
    rw [Change.remove.inj heq, mem_removals hremove] at hin
    exact hin.2 hid
  · rw [Change.getLastD_visited, result_plan hadd hremove]
  · intro s hs
    exact leader_mem_of_mem_dropLast (List.mem_toFinset.mpr hleader) hs

end Plan

def pending (leader : UInt64) (voters : Finset UInt64) : Control → List (Change UInt64)
  | .sleeping => []
  | .newNodes ids needRemove => plan leader ids needRemove
  | .findNew id _ ids needRemove =>
    (if id ∈ voters then [] else [.add id]) ++ plan leader ids needRemove
  | .removeNodes ids => removals leader ids false
  | .removeNext _ ids removeSelf => removals leader ids removeSelf
  | .findOld id _ ids removeSelf =>
    (if id ∈ voters then [.remove id] else []) ++ removals leader ids removeSelf
  -- only after its own removal does the leader not look at the voters again
  | .waiting w next =>
    (if next = .sleeping ∧ w.id ∈ voters then [.remove w.id] else []) ++ pending leader voters next

/-- A change is in flight only while the control loop waits for it. -/
inductive InFlight (voters : Finset UInt64) (control : Control) (registered : List Waiter)
    (inFlight : List (PipelineChange × ℕ)) : Prop
  | nothing (hin : inFlight = []) (hdone : ∀ w next, control = .waiting w next →
      (∀ w' next', next ≠ .waiting w' next') ∧ (next = .sleeping → w.id ∉ voters))
  | adding (id : UInt64) (data data' : Pipeline) (call : ℕ) (ids needRemove : List UInt64)
      (hin : inFlight = [(⟨.addNode, id, some data⟩, call)])
      (hcontrol : control = .waiting ⟨id, call⟩ (.findNew id data' ids needRemove))
      (hreg : ⟨id, call⟩ ∈ registered) (hid : id ∉ voters)
  | removing (id : UInt64) (data data' : Pipeline) (call : ℕ) (ids : List UInt64)
      (removeSelf : Bool) (hin : inFlight = [(⟨.removeNode, id, some data⟩, call)])
      (hcontrol : control = .waiting ⟨id, call⟩ (.findOld id data' ids removeSelf))
      (hreg : ⟨id, call⟩ ∈ registered) (hid : id ∈ voters)
  | leaving (id : UInt64) (data : Pipeline) (call : ℕ)
      (hin : inFlight = [(⟨.removeNode, id, some data⟩, call)])
      (hcontrol : control = .waiting ⟨id, call⟩ .sleeping)
      (hreg : ⟨id, call⟩ ∈ registered) (hid : id ∈ voters)

theorem InFlight.eq_nil {voters : Finset UInt64} {control : Control} {registered : List Waiter}
    {inFlight : List (PipelineChange × ℕ)} (h : InFlight voters control registered inFlight)
    (hc : ∀ w next, control = .waiting w next → w ∉ registered) : inFlight = [] := by
  cases h with
  | nothing hin hdone => exact hin
  | adding id data data' call ids needRemove hin hcontrol hreg hid =>
    exact absurd hreg (hc _ _ hcontrol)
  | removing id data data' call ids removeSelf hin hcontrol hreg hid =>
    exact absurd hreg (hc _ _ hcontrol)
  | leaving id data call hin hcontrol hreg hid => exact absurd hreg (hc _ _ hcontrol)

theorem InFlight.done {voters : Finset UInt64} {control : Control} {registered : List Waiter}
    {inFlight : List (PipelineChange × ℕ)} (h : InFlight voters control registered inFlight)
    (hnil : inFlight = []) {w : Waiter} {next : Control} (hc : control = .waiting w next) :
    (∀ w' next', next ≠ .waiting w' next') ∧ (next = .sleeping → w.id ∉ voters) := by
  cases h with
  | nothing hin hdone => exact hdone w next hc
  | adding id data data' call ids needRemove hin hcontrol hreg hid => simp [hnil] at hin
  | removing id data data' call ids removeSelf hin hcontrol hreg hid => simp [hnil] at hin
  | leaving id data call hin hcontrol hreg hid => simp [hnil] at hin

def todo (g : RaftGroup) : List (Change UInt64) := pending g.replica.id g.voters g.replica.control

/-- The sets passed so far and those that the pending changes lead through are the sets of the
plan, and every pending change does something. -/
structure OnPlan (start : Finset UInt64) (changes : List (Change UInt64)) (g : RaftGroup) :
    Prop where
  last : g.history.getLastD start = g.voters
  visited : g.history ++ Change.visited g.voters g.todo = Change.visited start changes
  effective : Change.AllEffective g.voters g.todo
  inFlight : InFlight g.voters g.replica.control g.replica.registered g.replica.inFlight

variable {start : Finset UInt64} {changes : List (Change UInt64)} {g g' : RaftGroup}

theorem OnPlan.of_todo_eq (h : OnPlan start changes g) {r : Replica}
    (hp : g.todo = pending r.id g.voters r.control)
    (hin : InFlight g.voters r.control r.registered r.inFlight) :
    OnPlan start changes { g with replica := r } := by
  have hvisited := h.visited
  have heff := h.effective
  rw [hp] at hvisited heff
  exact ⟨h.last, hvisited, heff, hin⟩

/-- The control loop goes on while nothing is in flight. -/
theorem OnPlan.goto (h : OnPlan start changes g) (hin : g.replica.inFlight = []) {c : Control}
    (hc : ∀ w next, c ≠ .waiting w next) (hp : g.todo = pending g.replica.id g.voters c) :
    OnPlan start changes { g with replica := { g.replica with control := c } } :=
  h.of_todo_eq hp (.nothing hin fun w next hw => absurd hw (hc w next))

/-- The control loop proposes the next pending change. -/
theorem OnPlan.propose (h : OnPlan start changes g) {type : Raft.ConfChangeType} {id : UInt64}
    {data : Pipeline} {next onError : Control}
    (hp : g.todo = pending g.replica.id g.voters (.waiting ⟨id, g.replica.calls⟩ next))
    (hin : InFlight g.voters (.waiting ⟨id, g.replica.calls⟩ next)
      (⟨id, g.replica.calls⟩ :: g.replica.registered)
      (g.replica.inFlight ++ [(⟨type, id, some data⟩, g.replica.calls)])) :
    OnPlan start changes
      { g with replica := g.replica.propose type id data true next onError } := by
  by_cases hreg : g.replica.isRegistered id
  · rw [Replica.propose, if_pos hreg]
    exact h.of_todo_eq rfl h.inFlight
  · rw [Replica.propose, if_neg hreg]
    exact h.of_todo_eq hp hin

theorem OnPlan.inFlight_eq_nil (h : OnPlan start changes g)
    (hc : ∀ w next, g.replica.control ≠ .waiting w next) : g.replica.inFlight = [] :=
  h.inFlight.eq_nil fun w next heq => absurd heq (hc w next)

section Advance

variable {r : Replica} {id : UInt64} {data : Pipeline} {ids needRemove : List UInt64}
  {removeSelf : Bool} (h : OnPlan start changes g)
  (hr : g.replica.advance g.surroundings = some r)
include h hr

theorem OnPlan.advance_newNodes (hc : g.replica.control = .newNodes ids needRemove) :
    OnPlan start changes { g with replica := r } := by
  have hin := h.inFlight_eq_nil (by simp [hc])
  cases ids with
  | nil =>
    simp only [Replica.advance, hc, Option.some.injEq] at hr
    subst hr
    exact h.goto hin (by simp) (by simp [todo, hc, pending, plan])
  | cons id ids =>
    simp only [Replica.advance, hc, Option.some.injEq] at hr
    subst hr
    have hid : id ∉ g.voters := by
      have heff := h.effective
      rw [todo, hc] at heff
      exact heff.1
    exact h.goto hin (by simp) (by simp [todo, hc, pending, plan, hid])

theorem OnPlan.advance_findNew (hc : g.replica.control = .findNew id data ids needRemove) :
    OnPlan start changes { g with replica := r } := by
  have hin := h.inFlight_eq_nil (by simp [hc])
  simp only [Replica.advance, hc, surroundings, findVoter, decide_eq_true_eq] at hr
  split_ifs at hr with hid <;> cases hr
  · exact h.goto hin (by simp) (by simp [todo, hc, pending, hid])
  · refine h.propose (by simp [todo, hc, pending]) ?_
    rw [hin]
    exact .adding id data data _ ids needRemove rfl rfl List.mem_cons_self hid

theorem OnPlan.advance_removeNodes (hc : g.replica.control = .removeNodes ids) :
    OnPlan start changes { g with replica := r } := by
  have hin := h.inFlight_eq_nil (by simp [hc])
  simp only [Replica.advance, hc, surroundings, Bool.false_eq_true, false_or] at hr
  split_ifs at hr with hids <;> cases hr
  · exact h.goto hin (by simp) (by simp [todo, hc, pending, hids, removals, removalOrder])
  · exact h.goto hin (by simp) (by simp [todo, hc, pending])

theorem OnPlan.advance_removeNext (hc : g.replica.control = .removeNext data ids removeSelf) :
    OnPlan start changes { g with replica := r } := by
  have hin := h.inFlight_eq_nil (by simp [hc])
  have heff := h.effective
  cases ids with
  | nil =>
    simp only [Replica.advance, hc] at hr
    split_ifs at hr with hself <;> cases hr
    · have hid : g.replica.id ∈ g.voters := by
        rw [todo, hc, hself] at heff
        exact heff.1
      refine h.propose (by simp [todo, hc, pending, removals, removalOrder, hself, hid]) ?_
      rw [hin]
      exact .leaving _ data _ rfl rfl List.mem_cons_self hid
    · exact h.goto hin (by simp) (by simp [todo, hc, pending, removals, removalOrder, hself])
  | cons id ids =>
    simp only [Replica.advance, hc] at hr
    split_ifs at hr with hself <;> cases hr
    · exact h.goto hin (by simp) (by simp [todo, hc, pending, removals, removalOrder, hself])
    · have hnext : removals g.replica.id (id :: ids) removeSelf =
          .remove id :: removals g.replica.id ids removeSelf := by
        simp [removals, removalOrder, hself, Ne.symm hself]
      have hid : id ∈ g.voters := by
        rw [todo, hc, pending, hnext] at heff
        exact heff.1
      refine h.propose (by simp [todo, hc, pending, hnext, hid]) ?_
      rw [hin]
      exact .removing id data data _ ids removeSelf rfl rfl List.mem_cons_self hid

theorem OnPlan.advance_findOld (hc : g.replica.control = .findOld id data ids removeSelf) :
    OnPlan start changes { g with replica := r } := by
  have hin := h.inFlight_eq_nil (by simp [hc])
  simp only [Replica.advance, hc, surroundings, findVoter, decide_eq_true_eq] at hr
  split_ifs at hr with hid <;> cases hr
  · refine h.propose (by simp [todo, hc, pending]) ?_
    rw [hin]
    exact .removing id data data _ ids removeSelf rfl rfl List.mem_cons_self hid
  · exact h.goto hin (by simp) (by simp [todo, hc, pending, hid])

/-- The caller has been released, so its change has been applied. -/
theorem OnPlan.advance_waiting {w : Waiter} {next : Control}
    (hc : g.replica.control = .waiting w next) :
    OnPlan start changes { g with replica := r } := by
  simp only [Replica.advance, hc] at hr
  split_ifs at hr with hw
  cases hr
  have hin : g.replica.inFlight = [] := by
    refine h.inFlight.eq_nil fun w' next' heq => ?_
    rw [hc, Control.waiting.injEq] at heq
    exact heq.1 ▸ hw
  obtain ⟨hnext, hdone⟩ := h.inFlight.done hin hc
  refine h.goto hin hnext ?_
  rw [todo, hc, pending, if_neg (fun hself => hdone hself.1 hself.2), List.nil_append]

theorem OnPlan.advance : OnPlan start changes { g with replica := r } := by
  cases hc : g.replica.control with
  | sleeping => simp [Replica.advance, hc] at hr
  | newNodes ids needRemove => exact h.advance_newNodes hr hc
  | findNew id data ids needRemove => exact h.advance_findNew hr hc
  | removeNodes ids => exact h.advance_removeNodes hr hc
  | removeNext data ids removeSelf => exact h.advance_removeNext hr hc
  | findOld id data ids removeSelf => exact h.advance_findOld hr hc
  | waiting w next => exact h.advance_waiting hr hc

end Advance

/-- The first pending change is applied. -/
theorem OnPlan.applied (h : OnPlan start changes g) {c : Change UInt64}
    {rest : List (Change UInt64)} (htodo : g.todo = c :: rest) {r : Replica}
    (hrest : pending r.id (c.apply g.voters) r.control = rest)
    (hin : InFlight (c.apply g.voters) r.control r.registered r.inFlight) :
    OnPlan start changes ⟨r, c.apply g.voters, g.history ++ [c.apply g.voters]⟩ := by
  have hvisited := h.visited
  have heff := h.effective
  rw [htodo] at hvisited heff
  refine ⟨List.getLastD_concat .., ?_, ?_, hin⟩
  · rw [todo, hrest, List.append_assoc]
    exact hvisited
  · rw [todo, hrest]
    exact heff.2

theorem checkInFlight_eq {r r' : Replica} {i : ℕ} (h : r.checkInFlight i = some r') :
    r'.id = r.id ∧ r'.control = r.control ∧ r'.inFlight = r.inFlight.eraseIdx i := by
  simp only [Replica.checkInFlight, bind, Option.bind_eq_some_iff] at h
  obtain ⟨c, -, hr'⟩ := h
  cases hr'
  rcases { r with inFlight := r.inFlight.eraseIdx i }.checkConfChange_cases c.1 with
    ⟨q, st, hq, -⟩ | ⟨q, st, hq⟩
  · rw [hq]
    exact ⟨rfl, rfl, rfl⟩
  · rw [hq]
    exact ⟨rfl, rfl, rfl⟩

theorem OnPlan.apply (h : OnPlan start changes g) {i : ℕ} {c : PipelineChange × ℕ}
    (hi : g.replica.inFlight[i]? = some c) {r : Replica} (hr : g.replica.checkInFlight i = some r) :
    OnPlan start changes ⟨r, applyConfChange g.voters c.1,
      g.history ++ [applyConfChange g.voters c.1]⟩ := by
  obtain ⟨hrid, hrcontrol, hrin⟩ := checkInFlight_eq hr
  -- the only change in flight is applied, and none is in flight any more
  have hone : ∀ x, g.replica.inFlight = [x] → x = c ∧ r.inFlight = [] := by
    intro x hx
    rw [hx, List.getElem?_singleton] at hi
    split_ifs at hi with hzero
    rw [hrin, hx, hzero]
    exact ⟨Option.some.inj hi, rfl⟩
  cases h.inFlight with
  | nothing hin hdone => simp [hin] at hi
  | adding id data data' call ids needRemove hin hcontrol hreg hid =>
    obtain ⟨rfl, hnil⟩ := hone _ hin
    have htodo : g.todo = .add id :: plan g.replica.id ids needRemove := by
      simp [todo, hcontrol, pending, hid]
    refine h.applied htodo ?_ ?_
    · simp [hrid, hrcontrol, hcontrol, pending, Change.apply]
    · refine .nothing hnil ?_
      simp [hrcontrol, hcontrol]
  | removing id data data' call ids removeSelf hin hcontrol hreg hid =>
    obtain ⟨rfl, hnil⟩ := hone _ hin
    have htodo : g.todo = .remove id :: removals g.replica.id ids removeSelf := by
      simp [todo, hcontrol, pending, hid]
    refine h.applied htodo ?_ ?_
    · simp [hrid, hrcontrol, hcontrol, pending, Change.apply]
    · refine .nothing hnil ?_
      simp [hrcontrol, hcontrol]
  | leaving id data call hin hcontrol hreg hid =>
    obtain ⟨rfl, hnil⟩ := hone _ hin
    have htodo : g.todo = [.remove id] := by simp [todo, hcontrol, pending, hid]
    refine h.applied htodo ?_ ?_
    · simp [hrcontrol, hcontrol, pending, Change.apply]
    · refine .nothing hnil ?_
      simp [hrcontrol, hcontrol, Change.apply]

theorem onPlan_step {a : RoundAction} (h : OnPlan start changes g) (hs : step g a = some g') :
    OnPlan start changes g' := by
  cases a with
  | advance =>
    simp only [step, bind, Option.bind_eq_some_iff, pure, Option.some.injEq] at hs
    obtain ⟨r, hr, rfl⟩ := hs
    rw [Replica.step] at hr
    split_ifs at hr
    exact h.advance hr
  | apply i =>
    simp only [step, bind, Option.bind_eq_some_iff, pure, Option.some.injEq] at hs
    obtain ⟨c, hi, r, hr, rfl⟩ := hs
    rw [Replica.step] at hr
    split_ifs at hr
    exact h.apply hi hr
  | proposeNewPipeline p =>
    simp only [step, bind, Option.bind_eq_some_iff, pure, Option.some.injEq] at hs
    obtain ⟨r, hr, rfl⟩ := hs
    rw [Replica.step] at hr
    split_ifs at hr
    cases hr
    obtain ⟨q, hq, -⟩ := g.replica.setPipeline_eq p
    rw [Replica.proposeNewPipeline, hq]
    exact h.of_todo_eq rfl h.inFlight

theorem onPlan_run {actions : List RoundAction} (h : OnPlan start changes g)
    (hrun : Logic.run step g actions = some g') : OnPlan start changes g' :=
  run_preserved (fun _ _ _ h hs => onPlan_step h hs) h hrun

structure Calm (g : RaftGroup) : Prop where
  registered : g.replica.registered = []
  inFlight : g.replica.inFlight = []
  panicked : g.replica.panicked = false

/-- The control loop gets back to sleep, each of its changes being applied when it is proposed. -/
def Completes (g : RaftGroup) : Prop :=
  ∃ actions g', (∀ a ∈ actions, a = .advance ∨ a = .apply 0) ∧
    Logic.run step g actions = some g' ∧ g'.replica.control = .sleeping

theorem completes_of_sleeping (h : g.replica.control = .sleeping) : g.Completes :=
  ⟨[], g, by simp, rfl, h⟩

theorem Completes.of_run {actions : List RoundAction}
    (hactions : ∀ a ∈ actions, a = .advance ∨ a = .apply 0)
    (hrun : Logic.run step g actions = some g') (h : g'.Completes) : g.Completes := by
  obtain ⟨more, g'', hmore, hrun', hsleep⟩ := h
  refine ⟨actions ++ more, g'', ?_, ?_, hsleep⟩
  · intro a ha
    rcases List.mem_append.mp ha with ha | ha
    · exact hactions a ha
    · exact hmore a ha
  · rw [run_append, hrun]
    exact hrun'

theorem Completes.of_advance (hg : g.replica.panicked = false) {r : Replica}
    (hr : g.replica.advance g.surroundings = some r)
    (h : { g with replica := r }.Completes) : g.Completes := by
  have hrun : Logic.run step g [.advance] = some { g with replica := r } := by
    simp [run_cons, step, Replica.step, hg, Replica.act, hr]
  exact h.of_run (by simp) hrun

/-- A change proposed under the pipeline that the replica still has releases those who wait for
it. -/
theorem checkInFlight_current {r : Replica} {type : Raft.ConfChangeType} {id : UInt64} {call : ℕ}
    (hin : r.inFlight = [(⟨type, id, some r.pipeline⟩, call)]) :
    ∃ r', r.checkInFlight 0 = some r' ∧ r'.inFlight = [] ∧ r'.control = r.control ∧
      r'.registered = r.registered.filter (fun w => w.id ≠ id) ∧ r'.pipeline = r.pipeline ∧
      r'.panicked = r.panicked := by
  have hset : { r with inFlight := [] }.setPipeline r.pipeline = { r with inFlight := [] } := by
    simp [Replica.setPipeline]
  obtain ⟨st, hst⟩ := ({ r with inFlight := [] }.trigger id).stopIfRemoved_eq
    ⟨type, id, some r.pipeline⟩
  simp only [Replica.checkInFlight, hin, bind, List.getElem?_cons_zero, Option.bind_some,
    List.eraseIdx_cons_zero, Replica.checkConfChange, hset, UInt64.lt_irrefl, if_false, hst]
  exact ⟨_, rfl, rfl, rfl, rfl, rfl, rfl⟩

/-- A change that is proposed is applied, and the control loop goes on. -/
theorem Calm.release (hg : g.Calm) (type : Raft.ConfChangeType) (id : UInt64)
    (next onError : Control) :
    ∃ g', Logic.run step
        { g with replica := g.replica.propose type id g.replica.pipeline true next onError }
        [.apply 0, .advance] = some g' ∧
      g'.Calm ∧ g'.replica.control = next ∧ g'.replica.pipeline = g.replica.pipeline ∧
      g'.voters = applyConfChange g.voters ⟨type, id, some g.replica.pipeline⟩ := by
  obtain ⟨r, hr⟩ : ∃ r, r = g.replica.propose type id g.replica.pipeline true next onError :=
    ⟨_, rfl⟩
  have hfields : r.inFlight = [(⟨type, id, some r.pipeline⟩, g.replica.calls)] ∧
      r.control = .waiting ⟨id, g.replica.calls⟩ next ∧ r.registered = [⟨id, g.replica.calls⟩] ∧
      r.pipeline = g.replica.pipeline ∧ r.panicked = false := by
    simp [hr, Replica.propose, Replica.isRegistered, hg.registered, hg.inFlight, hg.panicked]
  rw [← hr]
  clear hr
  obtain ⟨hin, hcontrol, hreg, hpipeline, hcalm⟩ := hfields
  obtain ⟨r', hcheck, hin', hcontrol', hreg', hpipeline', hcalm'⟩ := checkInFlight_current hin
  rw [hcontrol] at hcontrol'
  rw [hcalm] at hcalm'
  have hnobody : r'.registered = [] := by simp [hreg', hreg]
  obtain ⟨voters, hvoters⟩ :
    ∃ voters, voters = applyConfChange g.voters ⟨type, id, some g.replica.pipeline⟩ := ⟨_, rfl⟩
  refine ⟨⟨{ r' with control := next }, voters, g.history ++ [voters]⟩, ?_,
    ⟨hnobody, hin', hcalm'⟩, rfl, hpipeline'.trans hpipeline, hvoters⟩
  simp [run_cons, step, Replica.step, Replica.act, hcalm, hin, hcheck, hcalm', Replica.advance,
    hcontrol', hnobody, hpipeline, hvoters]

/-- The control loop goes on by itself. -/
theorem Calm.completes_goto (hg : g.Calm) (c : Control)
    (hr : g.replica.advance g.surroundings = some { g.replica with control := c })
    (h : ∀ g' : RaftGroup, g'.Calm → g'.replica.control = c →
      g'.replica.pipeline = g.replica.pipeline → g'.Completes) : g.Completes :=
  .of_advance hg.panicked hr (h _ ⟨hg.registered, hg.inFlight, hg.panicked⟩ rfl rfl)

/-- The control loop goes on after a change. -/
theorem Calm.completes_propose (hg : g.Calm) {type : Raft.ConfChangeType} {id : UInt64}
    (next : Control) {onError : Control}
    (hr : g.replica.advance g.surroundings =
      some (g.replica.propose type id g.replica.pipeline true next onError))
    (h : ∀ g' : RaftGroup, g'.Calm → g'.replica.control = next →
      g'.replica.pipeline = g.replica.pipeline →
      g'.voters = applyConfChange g.voters ⟨type, id, some g.replica.pipeline⟩ →
      g'.Completes) : g.Completes := by
  obtain ⟨g', hrun, hg', hc', hp', hvoters⟩ := hg.release type id next onError
  exact .of_advance hg.panicked hr (.of_run (by simp) hrun (h g' hg' hc' hp' hvoters))

theorem completes_removeNext {ids : List UInt64} {removeSelf : Bool} (hg : g.Calm)
    (hc : g.replica.control = .removeNext g.replica.pipeline ids removeSelf) : g.Completes := by
  induction ids generalizing g removeSelf with
  | nil =>
    cases removeSelf with
    | false =>
      refine hg.completes_goto .sleeping (by simp [Replica.advance, hc]) ?_
      exact fun g' _ hc' _ => completes_of_sleeping hc'
    | true =>
      refine hg.completes_propose .sleeping (by simp [Replica.advance, hc, surroundings]; rfl) ?_
      exact fun g' _ hc' _ _ => completes_of_sleeping hc'
  | cons id ids ih =>
    by_cases hid : id = g.replica.id
    · refine hg.completes_goto (.removeNext g.replica.pipeline ids true)
        (by simp [Replica.advance, hc, hid]) fun g' hg' hc' hp' => ?_
      exact ih hg' (hp' ▸ hc')
    · refine hg.completes_propose (.findOld id g.replica.pipeline ids removeSelf)
        (by simp [Replica.advance, hc, hid, surroundings]; rfl) fun g' hg' hc' hp' hvoters => ?_
      refine hg'.completes_goto (.removeNext g.replica.pipeline ids removeSelf)
        (by simp [Replica.advance, hc', surroundings, findVoter, hvoters, applyConfChange]) ?_
      exact fun g'' hg'' hc'' hp'' => ih hg'' ((hp''.trans hp') ▸ hc'')

theorem completes_newNodes {ids needRemove : List UInt64} (hg : g.Calm)
    (hc : g.replica.control = .newNodes ids needRemove) : g.Completes := by
  induction ids generalizing g with
  | nil =>
    refine hg.completes_goto (.removeNodes needRemove) (by simp [Replica.advance, hc]) ?_
    intro g hg hc hp
    by_cases hids : needRemove = []
    · exact hg.completes_goto .sleeping (by simp [Replica.advance, hc, hids])
        fun g' _ hc' _ => completes_of_sleeping hc'
    · refine hg.completes_goto (.removeNext g.replica.pipeline needRemove false)
        (by simp [Replica.advance, hc, hids, surroundings]) fun g' hg' hc' hp' => ?_
      exact completes_removeNext hg' (hp' ▸ hc')
  | cons id ids ih =>
    refine hg.completes_goto (.findNew id g.replica.pipeline ids needRemove)
      (by simp [Replica.advance, hc]) fun g₁ hg₁ hc₁ hp₁ => ?_
    rw [← hp₁] at hc₁
    by_cases hid : id ∈ g₁.voters
    · exact hg₁.completes_goto (.newNodes ids needRemove)
        (by simp [Replica.advance, surroundings, findVoter, hc₁, hid])
        fun g' hg' hc' _ => ih hg' hc'
    · refine hg₁.completes_propose (.findNew id g₁.replica.pipeline ids needRemove)
        (by simp [Replica.advance, surroundings, findVoter, hc₁, hid]; rfl)
        fun g' hg' hc' _ hvoters => ?_
      -- `findVoter` is asked once more after the proposal
      exact hg'.completes_goto (.newNodes ids needRemove)
        (by simp [Replica.advance, hc', surroundings, findVoter, hvoters, applyConfChange])
        fun g'' hg'' hc'' _ => ih hg'' hc''

variable {r r' : Replica} {V needAdd needRemove : List UInt64}

theorem wake_eq (h : r.step (.wake needAdd needRemove) = some r') :
    r.panicked = false ∧ r' = { r with control := .newNodes needAdd needRemove } := by
  simp only [Replica.step, Replica.act] at h
  split_ifs at h with hp hc
  exact ⟨by simpa using hp, (Option.some.inj h).symm⟩

/-- A round begins with its plan. -/
theorem onPlan_wake (hin : r.inFlight = []) (hwake : r.step (.wake needAdd needRemove) = some r')
    (hadd : Iterates needAdd (calDiff r.pipeline.raftId V).1)
    (hremove : Iterates needRemove (calDiff r.pipeline.raftId V).2) :
    OnPlan V.toFinset (plan r.id needAdd needRemove) ⟨r', V.toFinset, []⟩ := by
  obtain ⟨-, rfl⟩ := wake_eq hwake
  exact ⟨rfl, rfl, allEffective_plan hadd hremove r.id, .nothing hin (by simp)⟩

/-- At any time of a round, successive voter sets are one node apart, so their majorities meet. -/
theorem majorities_meet (hin : r.inFlight = [])
    (hwake : r.step (.wake needAdd needRemove) = some r')
    (hadd : Iterates needAdd (calDiff r.pipeline.raftId V).1)
    (hremove : Iterates needRemove (calDiff r.pipeline.raftId V).2)
    {actions : List RoundAction} (hrun : Logic.run step ⟨r', V.toFinset, []⟩ actions = some g) :
    (V.toFinset :: g.history).IsChain fun s t =>
      ∀ p q, Majority s p → Majority t q → (p ∩ q).Nonempty := by
  have hplan := onPlan_run (onPlan_wake hin hwake hadd hremove) hrun
  have hchain : (V.toFinset :: Change.visited V.toFinset
      (plan r.id needAdd needRemove)).IsChain OneApart :=
    Change.isChain_visited (fun c _ s h => c.oneApart h) (allEffective_plan hadd hremove r.id)
  rw [← hplan.visited, ← List.cons_append] at hchain
  exact hchain.left_of_append.imp fun s t h p q hp hq => h.majorities_meet hp hq

/-- A leader's round from the voters `V` comes to its end when its changes are applied, in
whichever order `calDiff` returns them, and a round that has come to its end, whatever pipelines
arrived meanwhile, has led the voters safely to the nodes of the pipeline it began with. -/
theorem reconfiguration_safe (r r' : Replica) (V needAdd needRemove : List UInt64)
    (hnobody : r.registered = []) (hin : r.inFlight = []) (hleader : r.id ∈ V)
    (hadd : Iterates needAdd (calDiff r.pipeline.raftId V).1)
    (hremove : Iterates needRemove (calDiff r.pipeline.raftId V).2)
    (hwake : r.step (.wake needAdd needRemove) = some r') :
    Completes ⟨r', V.toFinset, []⟩ ∧
      ∀ actions g, Logic.run step ⟨r', V.toFinset, []⟩ actions = some g →
        g.replica.control = .sleeping →
        Safe V.toFinset r.pipeline.raftId.toFinset r.id g.history ∧
          g.voters = r.pipeline.raftId.toFinset := by
  have hplan := onPlan_wake hin hwake hadd hremove
  have hsafe := safe_plan hadd hremove hleader
  obtain ⟨hcalm, hr'⟩ := wake_eq hwake
  refine ⟨?_, ?_⟩
  · subst hr'
    exact completes_newNodes ⟨hnobody, hin, hcalm⟩ rfl
  · intro actions g hrun hsleep
    have hend := onPlan_run hplan hrun
    have hvisited := hend.visited
    rw [todo, hsleep, pending, Change.visited, List.append_nil] at hvisited
    rw [← hvisited] at hsafe
    exact ⟨hsafe, hend.last.symm.trans hsafe.ends⟩

def movedAway : Replica := Replica.new 1 { pgId := 1, raftId := [2, 4, 4], clusterTerm := 1 }

def moving : RaftGroup := ⟨{ movedAway with control := .newNodes [4] [1, 3] }, {1, 2, 3}, []⟩

def moves : List RoundAction :=
  [.advance, .advance, .apply 0, .advance, .advance, .advance, .advance, .advance, .advance,
    .apply 0, .advance, .advance, .advance, .apply 0, .advance]

/-- From the voters 1, 2 and 3 the round passes three sets, and the leader 1 leaves last although
`calDiff` returned it before node 3. -/
theorem reconfiguration_safe_movedAway :
    ∃ g, Logic.run step moving moves = some g ∧
      g.history = [{1, 2, 3, 4}, {1, 2, 4}, {2, 4}] ∧
      Safe {1, 2, 3} {2, 4} 1 g.history ∧ g.voters = {2, 4} := by
  obtain ⟨g, hrun⟩ : ∃ g, Logic.run step moving moves = some g :=
    Option.isSome_iff_exists.mp (by decide +kernel)
  have hends : (Logic.run step moving moves).map (fun g => (g.history, g.replica.control)) =
      some ([{1, 2, 3, 4}, {1, 2, 4}, {2, 4}], .sleeping) := by decide +kernel
  rw [hrun, Option.map_some, Option.some.injEq, Prod.mk.injEq] at hends
  obtain ⟨hhistory, hsleep⟩ := hends
  have hP : movedAway.pipeline.raftId.toFinset = {2, 4} := by decide
  have hsafe := (reconfiguration_safe movedAway moving.replica [1, 2, 3] [4] [1, 3] rfl rfl
    (by decide) ⟨by decide, by decide⟩ ⟨by decide, by decide⟩ (by decide +kernel)).2
    moves g hrun hsleep
  rw [hP] at hsafe
  exact ⟨g, hrun, hhistory, hsafe⟩

end RaftGroup

end Ecos.Alaya
