import Ecos.Logic.Machine
import Ecos.RaftPublish

namespace Ecos.Raft
open Go Logic

inductive LoopPc where
  | idle
  | sendNil (rc : RaftNode) (ents : List Entry)
  | sendCommit (rc : RaftNode) (cmds : List Entry)
  | trigger (applyDoneC : Option ℕ)
  | exited (e : Exit)
  deriving DecidableEq, Repr

inductive Consumer where
  | receiving
  | loading
  | applying (applyDoneC : ℕ) (cmds : List Entry)
  deriving DecidableEq, Repr

inductive StorageOp where
  | apply (e : Entry)
  | recover
  deriving DecidableEq, Repr

/-- A saved snapshot with the history of the storage it was taken from and the commands
published by then. -/
structure Snapshot where
  index : UInt64
  storage : List StorageOp
  published : List Entry
  deriving DecidableEq, Repr

structure System where
  rc : RaftNode
  loop : LoopPc
  consumer : Consumer
  /-- channels made so far; a channel is named by its number -/
  doneChans : ℕ
  closed : List ℕ
  storage : List StorageOp
  published : List Entry
  snapshots : List Snapshot
  deriving DecidableEq, Repr

def System.start (snapshotIndex : UInt64) : System :=
  ⟨newRaftNode snapshotIndex, .idle, .receiving, 0, [], [], [], []⟩

def System.pending (s : System) : List Entry :=
  match s.consumer with
  | .applying _ cmds => cmds
  | _ => []

inductive Action where
  | ready (snapshotIndex : UInt64) (committedEntries : List Entry)
  | receive
  | applyNext
  | closeDone
  | recover
  | trigger
  | sendDone
  | waitDone
  deriving DecidableEq, Repr

def publishStage (unmarshal : Bytes → Option ConfChange) (s : System) (committed : List Entry) :
    System :=
  match entriesToApply s.rc committed with
  | .error e => { s with loop := .exited e }
  | .ok ents =>
    match publishEntries unmarshal s.rc ents false with
    | .error e => { s with loop := .exited e }
    | .ok p =>
      if p.commitC = [] then { s with rc := p.rc, loop := .trigger none }
      else { s with loop := .sendCommit p.rc (ents.filter isCommand) }

def saveSnapshot (s : System) (waits : Bool) : System :=
  { s with
    rc := maybeTriggerSnapshot s.rc waits false
    loop := .idle
    snapshots := s.snapshots ++ [⟨s.rc.appliedIndex, s.storage, s.published⟩] }

def step (unmarshal : Bytes → Option ConfChange) (s : System) : Action → Option System
  | .ready i committed =>
    match s.loop with
    | .idle =>
      match publishSnapshot s.rc i with
      | .error e => some { s with loop := .exited e }
      | .ok (_, []) => some (publishStage unmarshal s committed)
      | .ok (rc, _ :: _) => some { s with loop := .sendNil rc committed }
    | _ => none
  | .receive =>
    match s.consumer, s.loop with
    | .receiving, .sendNil rc committed =>
      some (publishStage unmarshal { s with rc := rc, consumer := .loading } committed)
    | .receiving, .sendCommit rc cmds =>
      some { s with
        rc := rc
        loop := .trigger (some s.doneChans)
        consumer := .applying s.doneChans cmds
        doneChans := s.doneChans + 1
        published := s.published ++ cmds }
    | _, _ => none
  | .applyNext =>
    match s.consumer with
    | .applying c (e :: cmds) =>
      some { s with consumer := .applying c cmds, storage := s.storage ++ [.apply e] }
    | _ => none
  | .closeDone =>
    match s.consumer with
    | .applying c [] => some { s with consumer := .receiving, closed := c :: s.closed }
    | _ => none
  | .recover =>
    match s.consumer with
    | .loading => some { s with consumer := .receiving, storage := s.storage ++ [.recover] }
    | _ => none
  | .trigger =>
    match s.loop with
    | .trigger applyDoneC =>
      if !s.rc.dueSnapshot then some { s with loop := .idle }
      else match applyDoneC with
        | none => some (saveSnapshot s false)
        | some c => if c ∈ s.closed then some (saveSnapshot s true) else none
    | _ => none
  | .sendDone =>
    match s.loop with
    | .sendCommit _ _ => some { s with loop := .exited .ctxDone }
    | _ => none
  | .waitDone =>
    match s.loop with
    | .trigger (some _) => if s.rc.dueSnapshot then some { s with loop := .idle } else none
    | _ => none

/-- Every saved snapshot holds all published commands up to its index. -/
def SnapshotsComplete (s : System) : Prop :=
  ∀ snap ∈ s.snapshots, ∀ e ∈ snap.published, e.index ≤ snap.index → .apply e ∈ snap.storage

/-- A snapshot is not taken without a channel to wait on while commands are pending. -/
def Settled (s : System) (a : Action) : Prop :=
  a = .trigger → s.loop = .trigger none → s.rc.dueSnapshot = true → s.pending = []

instance (s : System) (a : Action) : Decidable (Settled s a) :=
  inferInstanceAs (Decidable (a = .trigger → s.loop = .trigger none →
    s.rc.dueSnapshot = true → s.pending = []))

/-- Every published command is in the storage or still with the consumer, and while the
loop waits on a channel the consumer has nothing but the commit of that channel. -/
structure Inv (s : System) : Prop where
  accounted : ∀ e ∈ s.published, .apply e ∈ s.storage ∨ e ∈ s.pending
  closed_lt : ∀ c ∈ s.closed, c < s.doneChans
  not_closed : ∀ c cmds, s.consumer = .applying c cmds → c < s.doneChans ∧ c ∉ s.closed
  waiting : ∀ c, s.loop = .trigger (some c) →
    s.consumer = .receiving ∨ ∃ cmds, s.consumer = .applying c cmds
  complete : SnapshotsComplete s

theorem inv_start (i : UInt64) : Inv (System.start i) := by
  refine ⟨?_, ?_, ?_, ?_, ?_⟩
  · intro e he
    cases he
  · intro c hc
    cases hc
  · intro c cmds h
    cases h
  · intro c h
    cases h
  · intro snap h
    cases h

variable {unmarshal : Bytes → Option ConfChange} {s s' : System}

/-- The loop moves on by itself, not into a wait. -/
theorem Inv.move (h : Inv s) {rc : RaftNode} {l : LoopPc} (hl : ∀ c, l ≠ .trigger (some c)) :
    Inv { s with rc := rc, loop := l } :=
  ⟨h.accounted, h.closed_lt, h.not_closed, fun c hc => absurd hc (hl c), h.complete⟩

theorem Inv.publishStage (h : Inv s) (committed : List Entry) :
    Inv (publishStage unmarshal s committed) := by
  unfold Raft.publishStage
  split
  · exact h.move (by simp)
  · split
    · exact h.move (by simp)
    · split_ifs
      · exact h.move (by simp)
      · exact h.move (by simp)

theorem Inv.saveSnapshot (h : Inv s) (hp : s.pending = []) (waits : Bool) :
    Inv (saveSnapshot s waits) := by
  refine ⟨h.accounted, h.closed_lt, h.not_closed, fun c hc => (by cases hc), ?_⟩
  intro snap hsnap e he hle
  rcases List.mem_append.mp hsnap with hold | hnew
  · exact h.complete snap hold e he hle
  · rw [List.mem_singleton] at hnew
    subst hnew
    rcases h.accounted e he with hs | hpe
    · exact hs
    · rw [hp] at hpe
      cases hpe

theorem inv_ready {i : UInt64} {committed : List Entry} (h : Inv s)
    (hs : step unmarshal s (.ready i committed) = some s') : Inv s' := by
  simp only [step] at hs
  split at hs
  · split at hs <;> cases hs
    · exact h.move (by simp)
    · exact h.publishStage committed
    · exact h.move (by simp)
  · cases hs

theorem inv_receive (h : Inv s) (hs : step unmarshal s .receive = some s') : Inv s' := by
  simp only [step] at hs
  split at hs
  · rename_i rc committed hc hl
    cases hs
    -- a nil commit makes the consumer load a snapshot, and the loop goes on publishing
    have hload : Inv { s with rc := rc, consumer := .loading } := by
      refine ⟨?_, h.closed_lt, by simp, ?_, h.complete⟩
      · intro e he
        refine (h.accounted e he).imp_right fun hp => ?_
        rwa [System.pending, hc] at hp
      · intro c hloop
        exact absurd (hl.symm.trans hloop) (by simp)
    exact hload.publishStage committed
  · rename_i rc cmds hc hl
    cases hs
    refine ⟨?_, ?_, ?_, ?_, h.complete⟩
    · intro e he
      rcases List.mem_append.mp he with hold | hnew
      · -- the channel is unbuffered: an idle consumer has nothing left to apply
        refine (h.accounted e hold).imp_right fun hp => ?_
        rw [System.pending, hc] at hp
        cases hp
      · exact .inr hnew
    · intro c hcl
      exact Nat.lt_succ_of_lt (h.closed_lt c hcl)
    · intro c cmds' heq
      cases heq
      exact ⟨Nat.lt_succ_self _, fun hcl => absurd (h.closed_lt _ hcl) (lt_irrefl _)⟩
    · intro c hloop
      cases hloop
      exact .inr ⟨cmds, rfl⟩
  · cases hs

theorem inv_applyNext (h : Inv s) (hs : step unmarshal s .applyNext = some s') : Inv s' := by
  simp only [step] at hs
  split at hs
  · rename_i c e cmds hc
    cases hs
    refine ⟨?_, h.closed_lt, ?_, ?_, h.complete⟩
    · intro x hx
      rcases h.accounted x hx with hst | hp
      · exact .inl (List.mem_append_left _ hst)
      · rw [System.pending, hc] at hp
        rcases List.mem_cons.mp hp with rfl | hp
        · exact .inl (List.mem_append_right _ (List.mem_singleton_self _))
        · exact .inr hp
    · intro c' cmds' heq
      cases heq
      exact h.not_closed c _ hc
    · intro c' hloop
      rcases h.waiting c' hloop with hr | ⟨cmds', ha⟩
      · rw [hc] at hr
        cases hr
      · rw [hc] at ha
        cases ha
        exact .inr ⟨cmds, rfl⟩
  · cases hs

theorem inv_closeDone (h : Inv s) (hs : step unmarshal s .closeDone = some s') : Inv s' := by
  simp only [step] at hs
  split at hs
  · rename_i c hc
    cases hs
    refine ⟨?_, ?_, by simp, fun _ _ => .inl rfl, h.complete⟩
    · intro x hx
      refine (h.accounted x hx).imp_right fun hp => ?_
      rwa [System.pending, hc] at hp
    · intro c' hcl
      rcases List.mem_cons.mp hcl with rfl | hcl
      · exact (h.not_closed _ _ hc).1
      · exact h.closed_lt c' hcl
  · cases hs

theorem inv_recover (h : Inv s) (hs : step unmarshal s .recover = some s') : Inv s' := by
  simp only [step] at hs
  split at hs
  · rename_i hc
    cases hs
    refine ⟨?_, h.closed_lt, by simp, fun _ _ => .inl rfl, h.complete⟩
    intro x hx
    rcases h.accounted x hx with hst | hp
    · exact .inl (List.mem_append_left _ hst)
    · rw [System.pending, hc] at hp
      cases hp
  · cases hs

/-- A closed channel means that the consumer is done with the commit of the loop's turn. -/
theorem Inv.pending_eq_nil (h : Inv s) {c : ℕ} (hl : s.loop = .trigger (some c))
    (hc : c ∈ s.closed) : s.pending = [] := by
  rcases h.waiting c hl with hr | ⟨cmds, ha⟩
  · rw [System.pending, hr]
  · exact absurd hc (h.not_closed c cmds ha).2

theorem inv_trigger (h : Inv s) (hg : Settled s .trigger)
    (hs : step unmarshal s .trigger = some s') : Inv s' := by
  simp only [step] at hs
  split at hs
  · rename_i applyDoneC hl
    split_ifs at hs with hdue
    · cases hs
      exact h.move (by simp)
    · split at hs
      · cases hs
        exact h.saveSnapshot (hg rfl hl (by simpa using hdue)) false
      · split_ifs at hs with hc
        cases hs
        exact h.saveSnapshot (h.pending_eq_nil hl hc) true
  · cases hs

theorem inv_step (s : System) (a : Action) (s' : System) (h : Inv s) (hg : Settled s a)
    (hs : step unmarshal s a = some s') : Inv s' := by
  cases a with
  | ready i committed => exact inv_ready h hs
  | receive => exact inv_receive h hs
  | applyNext => exact inv_applyNext h hs
  | closeDone => exact inv_closeDone h hs
  | recover => exact inv_recover h hs
  | trigger => exact inv_trigger h hg hs
  | sendDone =>
    simp only [step] at hs
    split at hs <;> cases hs
    exact h.move (by simp)
  | waitDone =>
    simp only [step] at hs
    split at hs
    · split_ifs at hs
      cases hs
      exact h.move (by simp)
    · cases hs

/-- In every run in which no snapshot without a channel meets pending commands, every
saved snapshot holds all the commands published up to its index. -/
theorem snapshots_complete_of_settled (unmarshal : Bytes → Option ConfChange) (i : UInt64)
    (as : List Action) (s : System) (hg : Meets (step unmarshal) Settled (System.start i) as)
    (hr : run (step unmarshal) (System.start i) as = some s) : SnapshotsComplete s :=
  (run_invariant inv_step (inv_start i) hg hr).complete

def oneCommand : Log := fun i => (.normal, if i = 1 then [0] else [])

/-- The consumer is done with the command before the empty entry at 2001 arrives. -/
theorem snapshots_complete_of_settled_applied :
    SnapshotsComplete ⟨⟨2001, 2001, 2000⟩, .idle, .receiving, 1, [0],
      [.apply (entryAt oneCommand 1)], [entryAt oneCommand 1],
      [⟨2001, [.apply (entryAt oneCommand 1)], [entryAt oneCommand 1]⟩]⟩ :=
  snapshots_complete_of_settled (fun _ => none) 0
    [.ready 0 (slice oneCommand 1 2000), .receive, .trigger, .applyNext, .closeDone,
      .ready 0 (slice oneCommand 2001 1), .trigger] _ (by decide +kernel) (by decide +kernel)

/-- The empty entry at 2001 crosses the threshold while the consumer still holds the command
of the batch before it: the snapshot at 2001 is saved without the command at 1. -/
theorem snapshot_misses_command :
    ∃ s, run (step fun _ => none) (System.start 0)
        [.ready 0 (slice oneCommand 1 2000), .receive, .trigger,
          .ready 0 (slice oneCommand 2001 1), .trigger] = some s ∧ ¬ SnapshotsComplete s := by
  refine ⟨⟨⟨2001, 2001, 2000⟩, .idle, .applying 0 [entryAt oneCommand 1], 1, [], [],
    [entryAt oneCommand 1], [⟨2001, [], [entryAt oneCommand 1]⟩]⟩, by decide +kernel, ?_⟩
  intro h
  have := h ⟨2001, [], [entryAt oneCommand 1]⟩ (by simp) (entryAt oneCommand 1) (by simp)
    (by decide)
  cases this

end Ecos.Raft
