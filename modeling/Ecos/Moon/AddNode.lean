import Ecos.Infos
import Ecos.Logic.Machine
import Ecos.RaftNode

namespace Ecos.Moon.AddNode
open Go Logic Raft

inductive Delivered where
  | unknownNode
  | unreachable
  | sent
  | failed (e : Errno)
  deriving DecidableEq, Repr

/-- The errors that `sendByRpc` sends on `appliedConfErrorChan`. It goes on after a failed message,
but not after one to a node that it does not know or cannot connect to. -/
def sendByRpc : List Delivered → List Errno
  | [] => []
  | .unknownNode :: _ => []
  | .unreachable :: _ => []
  | .sent :: messages => sendByRpc messages
  | .failed e :: messages => e :: sendByRpc messages

structure Call where
  node : UInt64
  start : ℕ
  deriving DecidableEq, Repr

structure Return where
  node : UInt64
  applied : List ConfChange
  deriving DecidableEq, Repr

/-- Moon on one node. `AddNewNodeToCluster` makes one call at a time. -/
structure State where
  call : Option Call := none
  applied : List ConfChange := []
  /-- a change that is applied and not yet in the channel -/
  publishing : Option ConfChange := none
  applyConfChangeC : List ConfChange := []
  /-- the goroutines of `sendByRpc` with the errors they have still to get rid of -/
  senders : List (List Errno) := []
  returned : List Return := []
  deriving DecidableEq, Repr

inductive Action where
  /-- raft has taken the change of a new call -/
  | propose (node : UInt64)
  | applyConfChange (cc : ConfChange)
  | notify
  | sendByRpc (messages : List Delivered)
  /-- `Run` receives a change and does nothing -/
  | runReceive
  | callReceive
  | callReceiveError (i : ℕ)
  deriving DecidableEq, Repr

def Adds (cc : ConfChange) (node : UInt64) : Prop := cc.type = .addNode ∧ cc.nodeID = node

instance (cc : ConfChange) (node : UInt64) : Decidable (Adds cc node) :=
  inferInstanceAs (Decidable (_ ∧ _))

def added (ccs : List ConfChange) (node : UInt64) : Bool := ccs.any fun cc => Adds cc node

theorem added_iff {ccs : List ConfChange} {node : UInt64} :
    added ccs node = true ↔ ∃ cc ∈ ccs, Adds cc node := by
  simp [added]

namespace State

def returnNil (s : State) (c : Call) : State :=
  { s with call := none, returned := s.returned ++ [⟨c.node, s.applied⟩] }

def step (s : State) : Action → Option State
  | .propose node =>
    if s.call = none then some { s with call := some ⟨node, s.applied.length⟩ } else none
  | .applyConfChange cc =>
    if s.publishing = none then
      some { s with applied := s.applied ++ [cc], publishing := some cc }
    else none
  | .notify => do
    let cc ← s.publishing
    -- the capacity of the channel
    if s.applyConfChangeC.length < 10 then
      return { s with publishing := none, applyConfChangeC := s.applyConfChangeC ++ [cc] }
    else none
  | .sendByRpc messages => some { s with senders := s.senders ++ [AddNode.sendByRpc messages] }
  | .runReceive =>
    match s.applyConfChangeC with
    | [] => none
    | _ :: rest => some { s with applyConfChangeC := rest }
  | .callReceive => do
    let c ← s.call
    match s.applyConfChangeC with
    | [] => none
    | _ :: rest => return { s with applyConfChangeC := rest }.returnNil c
  | .callReceiveError i => do
    let c ← s.call
    match s.senders[i]? with
    | some (_ :: errs) => return { s with senders := s.senders.set i errs }.returnNil c
    | _ => none

def Ripe (s : State) : Prop := s.call.any (fun c => added (s.applied.drop c.start) c.node) = true

/-- The call can return only if another change is applied or another message fails. -/
def Stuck (s : State) : Prop :=
  s.Ripe ∧ s.publishing = none ∧ s.applyConfChangeC = [] ∧ ∀ errs ∈ s.senders, errs = []

/-- Calls have returned for nodes that were added, and the waiting one is not stuck. -/
structure Proper (s : State) : Prop where
  added : ∀ r ∈ s.returned, added r.applied r.node = true
  stuck : ¬s.Stuck

/-- What reaches a call that waits is the notification of its own change, which does not reach
`Run`, and no error. -/
def Undisturbed (s : State) : Action → Prop
  | .runReceive => ∀ c ∈ s.call, ∀ cc ∈ s.applyConfChangeC.head?, ¬ Adds cc c.node
  | .callReceive => ∀ c ∈ s.call, ∀ cc ∈ s.applyConfChangeC.head?, Adds cc c.node
  | .callReceiveError _ => False
  | _ => True

instance (s : State) : Decidable s.Ripe := inferInstanceAs (Decidable (_ = true))

instance (s : State) : DecidablePred s.Undisturbed
  | .runReceive => inferInstanceAs (Decidable (∀ c ∈ s.call, ∀ cc ∈ s.applyConfChangeC.head?, _))
  | .callReceive => inferInstanceAs (Decidable (∀ c ∈ s.call, ∀ cc ∈ s.applyConfChangeC.head?, _))
  | .callReceiveError _ => isFalse id
  | .propose _ | .applyConfChange _ | .notify | .sendByRpc _ => isTrue trivial

def Notifies (s : State) (cc : ConfChange) : Prop :=
  s.publishing = some cc ∨ cc ∈ s.applyConfChangeC

/-- What an undisturbed run keeps: the channel holds changes that are applied, and among them that
of the waiting call once it is applied. -/
structure Invariant (s : State) : Prop where
  applied : ∀ cc, s.Notifies cc → cc ∈ s.applied
  start_le : ∀ c ∈ s.call, c.start ≤ s.applied.length
  notified : ∀ c ∈ s.call, ∀ cc ∈ s.applied.drop c.start, Adds cc c.node →
    ∃ cc', s.Notifies cc' ∧ Adds cc' c.node
  added : ∀ r ∈ s.returned, added r.applied r.node = true

variable {s s' : State} {a : Action}

theorem Invariant.proper (h : s.Invariant) : s.Proper := by
  refine ⟨h.added, ?_⟩
  rintro ⟨hripe, hpublishing, hchannel, -⟩
  cases hc : s.call with
  | none => simp [Ripe, hc] at hripe
  | some c =>
    rw [Ripe, hc, Option.any_some] at hripe
    obtain ⟨cc, hmem, hadds⟩ := added_iff.mp hripe
    obtain ⟨cc', hnotifies, -⟩ := h.notified c hc cc hmem hadds
    simp [Notifies, hpublishing, hchannel] at hnotifies

theorem Invariant.applyConfChange (h : s.Invariant) (cc : ConfChange)
    (hnone : s.publishing = none) :
    Invariant { s with applied := s.applied ++ [cc], publishing := some cc } := by
  have hold : ∀ cc', s.Notifies cc' → cc' ∈ s.applyConfChangeC := by
    intro cc' hcc'
    exact hcc'.resolve_left (by simp [hnone])
  refine ⟨?_, fun c hc => ?_, ?_, h.added⟩
  · rintro cc' (hcc' | hcc')
    · cases hcc'
      exact List.mem_append_right _ (List.mem_singleton_self _)
    · exact List.mem_append_left _ (h.applied cc' (.inr hcc'))
  · have := h.start_le c hc
    rw [List.length_append]
    omega
  · intro c hc cc' hcc' hadds
    rw [List.drop_append_of_le_length (h.start_le c hc)] at hcc'
    rcases List.mem_append.mp hcc' with hcc' | hcc'
    · obtain ⟨own, hown, hadds'⟩ := h.notified c hc cc' hcc' hadds
      exact ⟨own, .inr (hold own hown), hadds'⟩
    · cases List.mem_singleton.mp hcc'
      exact ⟨cc, .inl rfl, hadds⟩

/-- The change moves into the channel. -/
theorem Invariant.notify (h : s.Invariant) {cc : ConfChange} (hcc : s.publishing = some cc) :
    Invariant { s with publishing := none, applyConfChangeC := s.applyConfChangeC ++ [cc] } := by
  have hsame : ∀ cc', Notifies { s with
      publishing := none, applyConfChangeC := s.applyConfChangeC ++ [cc] } cc' ↔
        s.Notifies cc' := by
    intro cc'
    simp only [Notifies, hcc, reduceCtorEq, false_or, List.mem_append, List.mem_singleton,
      Option.some.injEq]
    rw [or_comm, eq_comm]
  refine ⟨fun cc' hcc' => h.applied cc' ((hsame cc').mp hcc'), h.start_le, ?_, h.added⟩
  intro c hc cc' hcc' hadds
  obtain ⟨own, hown, hadds'⟩ := h.notified c hc cc' hcc' hadds
  exact ⟨own, (hsame own).mpr hown, hadds'⟩

/-- The change of a call stays in the channel while others are received. -/
theorem Invariant.receive {cc : ConfChange} {rest : List ConfChange} (h : s.Invariant)
    (hchannel : s.applyConfChangeC = cc :: rest) (hother : ∀ c ∈ s.call, ¬ Adds cc c.node) :
    Invariant { s with applyConfChangeC := rest } := by
  have hsub : ∀ cc', Notifies { s with applyConfChangeC := rest } cc' → s.Notifies cc' := by
    intro cc' hcc'
    refine hcc'.imp id fun hmem => ?_
    rw [hchannel]
    exact List.mem_cons_of_mem cc hmem
  refine ⟨fun cc' hcc' => h.applied cc' (hsub cc' hcc'), h.start_le, ?_, h.added⟩
  intro c hc cc' hcc' hadds
  obtain ⟨own, hown, hadds'⟩ := h.notified c hc cc' hcc' hadds
  refine ⟨own, hown.imp id fun hmem => ?_, hadds'⟩
  rw [hchannel] at hmem
  refine (List.mem_cons.mp hmem).resolve_left ?_
  rintro rfl
  exact hother c hc hadds'

/-- A call that receives the notification of its own change returns for a node that was added. -/
theorem Invariant.returnNil {c : Call} {cc : ConfChange} {rest : List ConfChange}
    (h : s.Invariant) (hchannel : s.applyConfChangeC = cc :: rest) (hadds : Adds cc c.node) :
    Invariant ({ s with applyConfChangeC := rest }.returnNil c) := by
  have hmem : cc ∈ s.applied :=
    h.applied cc (.inr (hchannel ▸ List.mem_cons_self))
  refine ⟨fun cc' hcc' => h.applied cc' ?_, fun _ hc => (by cases hc), fun _ hc => (by cases hc),
    fun r hr => ?_⟩
  · refine hcc'.imp id fun hmem' => ?_
    rw [hchannel]
    exact List.mem_cons_of_mem cc hmem'
  · rcases List.mem_append.mp hr with hr | hr
    · exact h.added r hr
    · rw [List.mem_singleton.mp hr]
      exact added_iff.mpr ⟨cc, hmem, hadds⟩

theorem Invariant.step (h : s.Invariant) (hu : s.Undisturbed a) (hstep : s.step a = some s') :
    s'.Invariant := by
  cases a with
  | propose node =>
    simp only [State.step] at hstep
    split_ifs at hstep
    cases hstep
    -- nothing has been applied since the call
    refine ⟨h.applied, fun c hc => ?_, fun c hc cc hcc => ?_, h.added⟩
    · cases hc
      exact Nat.le_refl _
    · cases hc
      rw [List.drop_length] at hcc
      cases hcc
  | applyConfChange cc =>
    simp only [State.step] at hstep
    split_ifs at hstep with hnone
    cases hstep
    exact h.applyConfChange cc hnone
  | notify =>
    simp only [State.step, bind, Option.bind_eq_some_iff] at hstep
    obtain ⟨cc, hcc, hstep⟩ := hstep
    split_ifs at hstep
    cases hstep
    exact h.notify hcc
  | sendByRpc messages =>
    cases hstep
    exact ⟨h.applied, h.start_le, h.notified, h.added⟩
  | runReceive =>
    simp only [State.step] at hstep
    split at hstep
    · cases hstep
    · rename_i cc rest hc
      cases hstep
      exact h.receive hc fun c hcall => hu c hcall cc (by rw [hc]; rfl)
  | callReceive =>
    simp only [State.step, bind, Option.bind_eq_some_iff] at hstep
    obtain ⟨c, hcall, hstep⟩ := hstep
    split at hstep
    · cases hstep
    · rename_i cc rest hc
      cases hstep
      exact h.returnNil hc (hu c hcall cc (by rw [hc]; rfl))
  | callReceiveError i => exact hu.elim

end State

open State

/-- Where no error reaches a call that waits, and the notification of its own change reaches it and
not `Run`, calls return for nodes that were added and none is stuck. -/
theorem proper_of_undisturbed (acts : List Action) {s : State} (hrun : run step {} acts = some s)
    (h : Meets step Undisturbed {} acts) : s.Proper := by
  have hinit : Invariant {} := by
    refine ⟨fun cc hcc => ?_, fun c hc => ?_, fun c hc => ?_, fun r hr => ?_⟩
    · rcases hcc with hcc | hcc <;> cases hcc
    · cases hc
    · cases hc
    · cases hr
  exact (run_invariant (fun _ _ _ hs hu hstep => hs.step hu hstep) hinit h hrun).proper

def after (acts : List Action) : State := (run step {} acts).getD {}

def addNode (node : UInt64) : ConfChange := ⟨.addNode, node, []⟩

/-- Nodes 1 and 2 are added. `Run` receives the first notification, and the call for node 2 the
second. -/
def joins : List Action :=
  [.propose 2, .applyConfChange (addNode 1), .notify, .runReceive, .applyConfChange (addNode 2),
    .notify, .callReceive]

theorem proper_joins : (after joins).returned = [⟨2, [addNode 1, addNode 2]⟩] ∧
    (after joins).Proper :=
  ⟨by decide, proper_of_undisturbed joins rfl (by decide)⟩

def otherNode : List Action := [.propose 2, .applyConfChange (addNode 1), .notify, .callReceive]

def failedMessage : List Action :=
  [.propose 2, .sendByRpc [.failed (.other "connection refused")], .callReceiveError 0]

/-- Its notification goes to `Run`. -/
def takenByRun : List Action := [.propose 2, .applyConfChange (addNode 2), .notify, .runReceive]

theorem call_disturbed :
    (run step {} otherNode = some (after otherNode) ∧
      (after otherNode).returned = [⟨2, [addNode 1]⟩] ∧ ¬(after otherNode).Proper) ∧
    (run step {} failedMessage = some (after failedMessage) ∧
      (after failedMessage).returned = [⟨2, []⟩] ∧ ¬(after failedMessage).Proper) ∧
    run step {} takenByRun = some (after takenByRun) ∧ (after takenByRun).Stuck := by
  have hother : (after otherNode).returned = [⟨2, [addNode 1]⟩] := by decide
  have hfailed : (after failedMessage).returned = [⟨2, []⟩] := by decide
  refine ⟨⟨rfl, hother, fun h => ?_⟩, ⟨rfl, hfailed, fun h => ?_⟩, rfl, by decide, by decide,
    by decide, fun errs herrs => ?_⟩
  · have hadded := h.added
    rw [hother, List.forall_mem_singleton] at hadded
    exact absurd hadded (by decide)
  · have hadded := h.added
    rw [hfailed, List.forall_mem_singleton] at hadded
    exact absurd hadded (by decide)
  · have hnone : (after takenByRun).senders = [] := by decide
    rw [hnone] at herrs
    cases herrs

end Ecos.Moon.AddNode
