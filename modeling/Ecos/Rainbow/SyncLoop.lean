import Ecos.Logic.Machine
import Ecos.Rainbow.CloudAlaya

namespace Ecos.Rainbow.SyncLoop
open Go Logic Std Moon Gaia

structure State extends CloudAlaya PositionedMeta where
  clusterInfo : Option ClusterInfo := none
  /-- the nodes with a stream -/
  streams : List UInt64 := []
  /-- what calls that have returned were given -/
  recorded : List PositionedMeta := []
  /-- the metas that were answered, with their answers -/
  answered : List (PositionedMeta × Response) := []

inductive Action where
  | getStream (nodeId : UInt64)
  | putClusterInfo (info : ClusterInfo)
  /-- `RecordObjectMeta` up to the send -/
  | recordObjectMeta (m : PositionedMeta)
  /-- the send, with which the call returns -/
  | notify (j : ℕ)
  /-- the loop takes a meta and sends its request -/
  | sync (sendErr : Option Errno)
  | requeue
  | answer (x : Response)
  | done
  deriving DecidableEq, Repr

/-- The request of the loop, with the error of `Send` on the stream. -/
def State.requested (s : State) (sendErr : Option Errno) : Option (Except Errno Unit) :=
  sendRequestToEdgeLeader s.clusterInfo s.streams (some (match sendErr with
    | some err => .error err
    | none => .ok ()))

def act (s : State) : Action → Option State
  | .getStream nodeId => some { s with streams := nodeId :: s.streams }
  | .putClusterInfo info =>
    if s.clusterInfo.all fun old => old.term ≤ info.term then
      some { s with clusterInfo := some info }
    else some s
  | .recordObjectMeta m =>
    let a := s.toCloudAlaya.recordObjectMeta (fun objId => { m with objId := objId }) m.objId
    some { s with toCloudAlaya := a }
  | .notify j => do
    let (m, a) ← s.toCloudAlaya.notify j
    return { s with toCloudAlaya := a, recorded := s.recorded ++ [m] }
  | .sync sendErr => do
    let (_, a) ← s.toCloudAlaya.sync (s.requested sendErr)
    return { s with toCloudAlaya := a }
  | .requeue => do
    let a ← s.toCloudAlaya.requeue
    return { s with toCloudAlaya := a }
  | .answer x => do
    let (m, a) ← s.toCloudAlaya.answered
    return { s with toCloudAlaya := a, answered := s.answered ++ [(m, x)] }
  | .done => do
    let a ← s.toCloudAlaya.done
    return { s with toCloudAlaya := a }

def step (s : State) (a : Action) : Option State :=
  match s.loop with
  | .panicked _ => none
  | _ => act s a

/-- An answer with `Result_OK`. -/
def Accepted (x : Response) : Prop := x.result.map Result.status = some .OK

instance (x : Response) : Decidable (Accepted x) := inferInstanceAs (Decidable (_ = _))

/-- The metas that the edge has answered with `Result_OK`. -/
def State.accepted (s : State) : List PositionedMeta :=
  (s.answered.filter fun p => Accepted p.2).map Prod.fst

/-- Every recorded meta is in the channel, in flight or accepted by the edge, and the loop is not
on the nil channel. -/
structure Kept (s : State) : Prop where
  recorded : s.recorded.Perm (s.syncEdgeChan ++ s.loop.inFlight ++ s.accepted)
  loop : s.loop ≠ .stuck

def Reached (s : State) : Action → Prop
  | .sync sendErr => s.requested sendErr = some (.ok ())
  | .answer x => Accepted x
  | _ => True

instance decidableEqSendResult : DecidableEq (Except Errno Unit)
  | .ok (), .ok () => isTrue rfl
  | .error a, .error b => decidable_of_iff (a = b) (by simp)
  | .ok _, .error _ | .error _, .ok _ => isFalse nofun

instance (s : State) : ∀ a, Decidable (Reached s a)
  | .sync _ => inferInstanceAs (Decidable (_ = _))
  | .answer x => inferInstanceAs (Decidable (Accepted x))
  | .getStream _ | .putClusterInfo _ | .recordObjectMeta _ | .notify _ | .requeue | .done =>
    isTrue trivial

/-- Where the recorded metas are, in every state: whatever the edge does, none disappears without
an answer. -/
def Conserved (s : State) : Prop :=
  s.recorded.Perm (s.syncEdgeChan ++ s.loop.held ++ s.answered.map Prod.fst)

theorem act_of_step {s s' : State} {a : Action} (h : step s a = some s') : act s a = some s' := by
  unfold step at h
  split at h
  · cases h
  · exact h

/-- A meta that comes in stands for one more recorded meta. -/
theorem perm_insert {α : Type} {recorded chan rest : List α} (h : recorded.Perm (chan ++ rest))
    (m : α) : (recorded ++ [m]).Perm (chan ++ [m] ++ rest) := by
  refine (h.append_right [m]).trans ?_
  rw [List.append_assoc, List.append_assoc]
  exact List.perm_append_comm.append_left chan

theorem Conserved.act {s s' : State} {a : Action} (h : Conserved s) (hs : act s a = some s') :
    Conserved s' := by
  unfold Conserved at h ⊢
  cases a with
  | getStream nodeId =>
    cases hs
    exact h
  | putClusterInfo info =>
    simp only [SyncLoop.act] at hs
    split_ifs at hs <;> cases hs <;> exact h
  | recordObjectMeta m =>
    cases hs
    exact h
  | notify j =>
    obtain ⟨⟨m, a⟩, ha, hs⟩ := Option.bind_eq_some_iff.mp hs
    obtain ⟨-, rfl⟩ := CloudAlaya.notify_eq ha
    cases hs
    rw [List.append_assoc] at h ⊢
    exact perm_insert h m
  | sync sendErr =>
    obtain ⟨⟨m, a⟩, ha, hs⟩ := Option.bind_eq_some_iff.mp hs
    obtain ⟨hloop, rest, hchan, rfl⟩ := CloudAlaya.sync_eq ha
    cases hs
    rw [hloop, hchan] at h
    simp only [CloudAlaya.Loop.held, List.append_nil] at h
    simp only [CloudAlaya.Loop.held_requested]
    refine h.trans (List.Perm.append_right _ ?_)
    exact (List.perm_append_singleton m rest).symm
  | requeue =>
    obtain ⟨a, ha, hs⟩ := Option.bind_eq_some_iff.mp hs
    obtain ⟨m, hloop, rfl⟩ := CloudAlaya.requeue_eq ha
    cases hs
    rw [hloop] at h
    simpa only [CloudAlaya.Loop.held, List.append_nil] using h
  | answer x =>
    obtain ⟨⟨m, a⟩, ha, hs⟩ := Option.bind_eq_some_iff.mp hs
    obtain ⟨hloop, rfl⟩ := CloudAlaya.answered_eq ha
    cases hs
    rw [hloop] at h
    simp only [CloudAlaya.Loop.held, List.append_nil, List.map_append, List.map_singleton] at h ⊢
    refine h.trans ?_
    rw [List.append_assoc]
    exact List.perm_append_comm.append_left _
  | done =>
    obtain ⟨a, ha, hs⟩ := Option.bind_eq_some_iff.mp hs
    obtain ⟨hloop, rfl⟩ := CloudAlaya.done_eq ha
    cases hs
    rw [hloop] at h
    exact h

theorem conserved_new : Conserved {} := List.Perm.refl _

theorem conserved_of_run {as : List Action} {s : State} (hr : run step {} as = some s) :
    Conserved s := by
  have hstep : ∀ s a s', Conserved s → step s a = some s' → Conserved s' :=
    fun s a s' h hs => h.act (act_of_step hs)
  exact run_preserved hstep conserved_new hr

/-- The loop is at its select or waits for an answer, and all answers accept. -/
structure Clear (s : State) : Prop where
  loop : s.loop.held = s.loop.inFlight ∧ s.loop ≠ .stuck
  accepted : ∀ p ∈ s.answered, Accepted p.2

theorem Clear.act {s s' : State} {a : Action} (h : Clear s) (hg : Reached s a)
    (hs : act s a = some s') : Clear s' := by
  cases a with
  | getStream nodeId =>
    cases hs
    exact ⟨h.loop, h.accepted⟩
  | putClusterInfo info =>
    simp only [SyncLoop.act] at hs
    split_ifs at hs <;> cases hs <;> exact ⟨h.loop, h.accepted⟩
  | recordObjectMeta m =>
    cases hs
    exact ⟨h.loop, h.accepted⟩
  | notify j =>
    obtain ⟨⟨m, a⟩, ha, hs⟩ := Option.bind_eq_some_iff.mp hs
    obtain ⟨-, rfl⟩ := CloudAlaya.notify_eq ha
    cases hs
    exact ⟨h.loop, h.accepted⟩
  | sync sendErr =>
    obtain ⟨⟨m, a⟩, ha, hs⟩ := Option.bind_eq_some_iff.mp hs
    obtain ⟨-, rest, -, rfl⟩ := CloudAlaya.sync_eq ha
    cases hs
    rw [Reached] at hg
    exact ⟨by simp [hg, CloudAlaya.Loop.requested, CloudAlaya.Loop.held,
      CloudAlaya.Loop.inFlight], h.accepted⟩
  | requeue =>
    -- a loop that sends its meta again has one that is not in flight
    obtain ⟨a, ha, hs⟩ := Option.bind_eq_some_iff.mp hs
    obtain ⟨m, hloop, -⟩ := CloudAlaya.requeue_eq ha
    have hheld := h.loop.1
    rw [hloop] at hheld
    cases hheld
  | answer x =>
    obtain ⟨⟨m, a⟩, ha, hs⟩ := Option.bind_eq_some_iff.mp hs
    obtain ⟨-, rfl⟩ := CloudAlaya.answered_eq ha
    cases hs
    refine ⟨⟨rfl, nofun⟩, fun p hp => ?_⟩
    rcases List.mem_append.mp hp with hp | hp
    · exact h.accepted p hp
    · rw [List.mem_singleton.mp hp]
      exact hg
  | done =>
    obtain ⟨a, ha, hs⟩ := Option.bind_eq_some_iff.mp hs
    obtain ⟨-, rfl⟩ := CloudAlaya.done_eq ha
    cases hs
    exact ⟨⟨rfl, nofun⟩, h.accepted⟩

theorem clear_new : Clear {} := ⟨⟨rfl, nofun⟩, fun _ hp => absurd hp List.not_mem_nil⟩

theorem kept_of_clear {s : State} (hc : Conserved s) (h : Clear s) : Kept s := by
  have hall : s.accepted = s.answered.map Prod.fst := by
    rw [State.accepted, List.filter_eq_self.mpr fun p hp => decide_eq_true (h.accepted p hp)]
  refine ⟨?_, h.loop.2⟩
  rw [hall, ← h.loop.1]
  exact hc

/-- While requests reach the edge and it accepts them, no recorded meta is lost. -/
theorem kept_of_reached (as : List Action) (hg : Meets step Reached {} as) (s : State)
    (hr : run step {} as = some s) : Kept s := by
  have hstep : ∀ s a s', Clear s → Reached s a → step s a = some s' → Clear s' :=
    fun s a s' h hg hs => h.act hg (act_of_step hs)
  exact kept_of_clear (conserved_of_run hr) (run_invariant hstep clear_new hg hr)

def cloudMeta : PositionedMeta :=
  ⟨{ objId := [107], objSize := 1, pgId := 1, blocks := [], term := 1 }, .CLOUD⟩

def leaderNode : NodeInfo := ⟨7, [], [], 0, 0, .ONLINE⟩

def recordOne : List Action :=
  [.getStream 7, .putClusterInfo { ClusterInfo.zero with leaderInfo := some leaderNode },
    .recordObjectMeta cloudMeta, .notify 0]

def syncTwo : List Action :=
  recordOne ++ [.sync none, .answer { responseTo := 10000, result := some ⟨.OK, 0, ""⟩ },
    .recordObjectMeta cloudMeta, .notify 0, .sync none]

theorem kept_syncTwo :
    ((run step {} syncTwo).map fun s => (s.recorded.length, s.loop.inFlight.length,
        s.accepted.length)) = some (2, 1, 1) ∧
      ∀ s, run step {} syncTwo = some s → Kept s :=
  ⟨by decide +kernel, kept_of_reached syncTwo (by decide +kernel)⟩

/-- After an answer with `Result_FAIL` the meta is nowhere, and after a request that fails the loop
is on the nil channel. -/
theorem failed_answer_loses_meta :
    (∃ s, run step {} (recordOne ++ [.sync none,
        .answer { responseTo := 10000, result := some ⟨.FAIL, 0, "not found"⟩ }]) = some s ∧
      s.recorded = [cloudMeta] ∧ s.syncEdgeChan ++ s.loop.inFlight ++ s.accepted = [] ∧ ¬ Kept s) ∧
      ∃ s, run step {} (recordOne ++ [.sync (some (.other "unavailable")), .requeue]) = some s ∧
        s.loop = .stuck ∧ ¬ Kept s := by
  constructor
  · refine ⟨_, rfl, rfl, rfl, fun h => ?_⟩
    exact absurd h.recorded.length_eq (by decide)
  · exact ⟨_, rfl, rfl, fun h => h.loop rfl⟩

/-- The edge has recorded what it accepts. -/
theorem recordObjectMeta_of_accepted {o : Outpost} {request : Request} {m : PositionedMeta}
    {sent : List Response} (hm : request.objectMeta = some m)
    (h : o.doMetaPut request = some sent) {x : Response} (hx : x ∈ sent) (hok : Accepted x) :
    ∃ nodeInfo, o.recordObjectMeta nodeInfo m = none := by
  have hfail : ∀ err, ¬ Accepted (Outpost.returnFail request err) := fun err heq => nomatch heq
  simp only [Outpost.doMetaPut, hm, Option.bind_eq_bind, Option.bind_some] at h
  split at h
  · cases h
    exact absurd (List.mem_singleton.mp hx ▸ hok) (hfail _)
  · obtain ⟨nodeInfo, -, h⟩ := Option.bind_eq_some_iff.mp h
    split at h
    · cases h
      exact absurd (List.mem_singleton.mp hx ▸ hok) (hfail _)
    · split at h
      · cases h
        exact absurd (List.mem_singleton.mp hx ▸ hok) (hfail _)
      · next hrec => exact ⟨nodeInfo, hrec⟩

end Ecos.Rainbow.SyncLoop
