import Ecos.Watcher

namespace Ecos.Watcher
open Moon Logic

inductive PipelineState where
  | UNKNOWN
  | OK
  | DOWN_GRADE
  | CHANGING
  | ERROR
  deriving DecidableEq, Repr

structure PipelineReport where
  pgId : UInt64
  nodeIds : List UInt64
  leaderId : UInt64
  state : PipelineState
  deriving DecidableEq, Repr

structure NodeStatusReport where
  nodeId : UInt64
  state : NodeState
  pipelines : List PipelineReport := []
  deriving DecidableEq, Repr

structure Event where
  report : NodeStatusReport
  deriving DecidableEq, Repr

inductive Task where
  /-- a first contact: the event is put on the channel, then the report is stored -/
  | sending (report : NodeStatusReport)
  | storing (report : NodeStatusReport) (announced : Bool)
  /-- the node has been set offline, and the event is put on the channel -/
  | announcing (report : NodeStatusReport)
  deriving DecidableEq, Repr

namespace Task

def quiet : Task → Option NodeStatusReport
  | .storing r false => some r
  | _ => none

def early : Task → Bool
  | .storing _ true => true
  | _ => false

end Task

/-- The state recorded for a node changes between online and offline, or is the first. -/
def Changed (before : Option NodeState) (after : NodeState) : Prop :=
  before = none ∨ before = some .ONLINE ∧ after = .OFFLINE ∨
    before = some .OFFLINE ∧ after = .ONLINE

instance (before : Option NodeState) (after : NodeState) : Decidable (Changed before after) :=
  instDecidableOr

structure Polled where
  /-- the entry in `nodeStatusMap` -/
  report : Option NodeStatusReport := none
  tasks : List Task := []
  /-- the states that the recorded state changed to -/
  changes : List NodeState := []
  /-- the states that events were put on the channel for -/
  raised : List NodeState := []
  deriving DecidableEq, Repr

namespace Polled

def state (p : Polled) : Option NodeState := p.report.map NodeStatusReport.state

def store (p : Polled) (r : NodeStatusReport) : Polled :=
  { p with
    report := some r
    changes := if Changed p.state r.state then p.changes ++ [r.state] else p.changes }

/-- `client.Get` returns a report, and the goroutine looks for the node in the map. -/
def received (p : Polled) (r : NodeStatusReport) : Polled :=
  { p with tasks := p.tasks ++ [if p.report.isNone then .sending r else .storing r false] }

/-- `client.Get` fails. The report in the map is changed in place. -/
def failed (p : Polled) : Polled :=
  match p.report with
  | none => p
  | some r =>
    if r.state = .OFFLINE then p
    else
      let r := { r with state := .OFFLINE }
      { p.store r with tasks := p.tasks ++ [.announcing r] }

def toRaise (p : Polled) : List NodeState :=
  p.tasks.flatMap fun
    | .sending r => [r.state]
    | .storing _ _ => []
    | .announcing r => [r.state]

/-- Each change of the recorded state has its event, on the channel or about to be put there. -/
def Raises (p : Polled) : Prop := p.changes.Sublist (p.raised ++ p.toRaise)

end Polled

/-- A receiver has taken an event and called `GetNodeReport`. -/
structure Handling where
  event : Event
  /-- no other event of the node is on the channel or about to be put there -/
  last : Bool
  seen : Option NodeState
  deriving DecidableEq, Repr

structure NodeMonitor where
  node : UInt64 → Polled := fun _ => {}
  clusterPipeline : UInt64 → Option PipelineReport := fun _ => none
  eventChannel : List Event := []
  handled : List Handling := []

inductive PollAction where
  /-- a poll ends with a report -/
  | received (report : NodeStatusReport)
  /-- the poll of a node ends with an error -/
  | failed (nodeId : UInt64)
  /-- the `i`-th goroutine that is about this node goes on -/
  | proceed (nodeId : UInt64) (i : ℕ)
  /-- a receiver takes an event -/
  | handle
  deriving DecidableEq, Repr

namespace NodeMonitor

def getNodeReport (m : NodeMonitor) (nodeID : UInt64) : Option NodeStatusReport :=
  (m.node nodeID).report

def setNode (m : NodeMonitor) (n : UInt64) (p : Polled) : NodeMonitor :=
  { m with node := Function.update m.node n p }

def storePipelines (m : NodeMonitor) (ps : List PipelineReport) : NodeMonitor :=
  { m with
    clusterPipeline := ps.foldl (fun f p => Function.update f p.pgId (some p)) m.clusterPipeline }

/-- `m.eventChannel <-`, which blocks while the channel is full. -/
def put (m : NodeMonitor) (r : NodeStatusReport) : Option NodeMonitor :=
  if m.eventChannel.length < 5 then some { m with eventChannel := m.eventChannel ++ [⟨r⟩] }
  else none

def isLast (m : NodeMonitor) (e : Event) (rest : List Event) : Bool :=
  rest.all (fun e' => e'.report.nodeId ≠ e.report.nodeId) &&
    (m.node e.report.nodeId).toRaise.isEmpty

def step (m : NodeMonitor) : PollAction → Option NodeMonitor
  | .received r => some (m.setNode r.nodeId ((m.node r.nodeId).received r))
  | .failed n => some (m.setNode n (m.node n).failed)
  | .proceed n i =>
    let p := m.node n
    match p.tasks[i]? with
    | none => none
    | some (.sending r) =>
      let p := { p with tasks := p.tasks.set i (.storing r true), raised := p.raised ++ [r.state] }
      (m.setNode n p).put r
    | some (.storing r _) =>
      let p := { p.store r with tasks := p.tasks.eraseIdx i }
      some ((m.setNode n p).storePipelines r.pipelines)
    | some (.announcing r) =>
      let p := { p with tasks := p.tasks.eraseIdx i, raised := p.raised ++ [r.state] }
      (m.setNode n p).put r
  | .handle =>
    match m.eventChannel with
    | [] => none
    | e :: rest =>
      let seen := (m.getNodeReport e.report.nodeId).map NodeStatusReport.state
      some { m with
        eventChannel := rest
        handled := m.handled ++ [⟨e, m.isLast e rest, seen⟩] }

/-- Every change of a recorded state has its event, and a receiver of the last event of a node has
found the state that the event was raised for. -/
structure Lawful (m : NodeMonitor) : Prop where
  raises : ∀ n, (m.node n).Raises
  informs : ∀ h ∈ m.handled, h.last → h.seen = some h.event.report.state

/-- The polls of a node come one after the other, and nodes report that they are online or
offline. -/
def Orderly (m : NodeMonitor) : PollAction → Prop
  | .received r => (m.node r.nodeId).tasks = [] ∧ (r.state = .ONLINE ∨ r.state = .OFFLINE)
  | .failed n => (m.node n).tasks = []
  | .proceed _ _ => True
  | .handle => True

/-- A report of a node that is known does not change its state, and the event of a first contact
is taken after the report has been stored. -/
def Sound (m : NodeMonitor) : PollAction → Prop
  | .received _ => True
  | .failed _ => True
  | .proceed n i => ∀ t ∈ (m.node n).tasks[i]?, ∀ r ∈ t.quiet, (m.node n).state = some r.state
  | .handle => ∀ e ∈ m.eventChannel.head?, m.isLast e m.eventChannel.tail →
      ∀ t ∈ (m.node e.report.nodeId).tasks, t.early = false

instance (m : NodeMonitor) (a : PollAction) : Decidable (m.Orderly a) := by
  unfold Orderly
  split <;> infer_instance

instance (m : NodeMonitor) (a : PollAction) : Decidable (m.Sound a) := by
  unfold Sound
  split <;> infer_instance

end NodeMonitor

namespace Polled

def Own (n : UInt64) (r : NodeStatusReport) : Prop :=
  r.nodeId = n ∧ (r.state = .ONLINE ∨ r.state = .OFFLINE)

/-- How events and changes of the recorded state compare while a goroutine has this to do. -/
def Engaged (n : UInt64) (p : Polled) : Task → Prop
  | .sending r => Own n r ∧ p.raised = [] ∧ p.changes = []
  | .storing r true => Own n r ∧ p.raised = [r.state] ∧ p.changes = []
  | .storing r false => Own n r ∧ p.raised.Sublist p.changes ∧ p.changes ≠ []
  | .announcing r => r.nodeId = n ∧ r.state = .OFFLINE ∧
      ∃ before, p.changes = before ++ [.OFFLINE] ∧ p.raised.Sublist before

/-- There is one goroutine at most. -/
def Phase (n : UInt64) (p : Polled) : List Task → Prop
  | [] => p.raised.Sublist p.changes
  | [t] => p.Engaged n t
  | _ :: _ :: _ => False

/-- `queued` are the states of the node's events on the channel. -/
structure Tidy (n : UInt64) (queued : List NodeState) (p : Polled) : Prop where
  recorded : p.state = p.changes.getLast?
  known : ∀ s ∈ p.state, s = .ONLINE ∨ s = .OFFLINE
  owner : ∀ r ∈ p.report, r.nodeId = n
  queue : queued <:+ p.raised
  phase : p.Phase n p.tasks

variable {n : UInt64} {s : NodeState} {queued : List NodeState} {p : Polled}

theorem raises_of_idle (h : p.toRaise = []) : p.Raises ↔ p.changes.Sublist p.raised := by
  rw [Raises, h, List.append_nil]

theorem changed_iff {before : Option NodeState} {after : NodeState}
    (hbefore : ∀ s ∈ before, s = .ONLINE ∨ s = .OFFLINE)
    (hafter : after = .ONLINE ∨ after = .OFFLINE) : Changed before after ↔ before ≠ some after := by
  cases before with
  | none => simp [Changed]
  | some s =>
    rcases hbefore s rfl with rfl | rfl <;> rcases hafter with rfl | rfl <;> simp [Changed]

theorem state_store (p : Polled) (r : NodeStatusReport) : (p.store r).state = some r.state := rfl

theorem changes_store_of_eq (h : p.Tidy n queued) {r : NodeStatusReport}
    (hr : r.state = .ONLINE ∨ r.state = .OFFLINE) (heq : p.state = some r.state) :
    (p.store r).changes = p.changes := by
  have hsame : ¬Changed p.state r.state := fun hc => (changed_iff h.known hr).mp hc heq
  simp only [store, if_neg hsame]

theorem changes_store_of_ne (h : p.Tidy n queued) {r : NodeStatusReport}
    (hr : r.state = .ONLINE ∨ r.state = .OFFLINE) (hne : p.state ≠ some r.state) :
    (p.store r).changes = p.changes ++ [r.state] := by
  simp only [store, if_pos ((changed_iff h.known hr).mpr hne)]

theorem recorded_store (h : p.Tidy n queued) {r : NodeStatusReport}
    (hr : r.state = .ONLINE ∨ r.state = .OFFLINE) :
    (p.store r).state = (p.store r).changes.getLast? := by
  by_cases heq : p.state = some r.state
  · rw [changes_store_of_eq h hr heq, state_store, ← h.recorded, heq]
  · rw [changes_store_of_ne h hr heq, state_store, List.getLast?_concat]

/-- What storing a report of the node leaves tidy, once the goroutine's next phase is known. -/
theorem Tidy.store (h : p.Tidy n queued) {r : NodeStatusReport} (hown : Own n r)
    {tasks : List Task} (hphase : Phase n (p.store r) tasks) :
    Tidy n queued { p.store r with tasks := tasks } where
  recorded := recorded_store h hown.2
  known _ hs := Option.some.inj hs ▸ hown.2
  owner _ hr' := Option.some.inj hr' ▸ hown.1
  queue := h.queue
  phase := hphase

theorem Tidy.phase_of (h : p.Tidy n queued) {tasks : List Task} (htasks : p.tasks = tasks) :
    p.Phase n tasks :=
  htasks ▸ h.phase

theorem Tidy.received (h : p.Tidy n queued) (htasks : p.tasks = []) {r : NodeStatusReport}
    (hown : Own n r) : (p.received r).Tidy n queued ∧ ((p.received r).Raises ↔ p.Raises) := by
  have hraised : p.raised.Sublist p.changes := h.phase_of htasks
  have hrec := h.recorded
  cases hreport : p.report with
  | none =>
    have hchanges : p.changes = [] := by
      rw [state, hreport, Option.map_none, eq_comm, List.getLast?_eq_none_iff] at hrec
      exact hrec
    have hreceived : p.received r = { p with tasks := [.sending r] } := by
      simp [Polled.received, htasks, hreport]
    rw [hchanges, List.sublist_nil] at hraised
    rw [hreceived]
    refine ⟨⟨h.recorded, h.known, h.owner, h.queue, hown, hraised, hchanges⟩, ?_⟩
    simp [Raises, hchanges]
  | some r' =>
    have hchanges : p.changes ≠ [] := by
      intro hnil
      simp [state, hreport, hnil] at hrec
    have hreceived : p.received r = { p with tasks := [.storing r false] } := by
      simp [Polled.received, htasks, hreport]
    rw [hreceived]
    refine ⟨⟨h.recorded, h.known, h.owner, h.queue, hown, hraised, hchanges⟩, ?_⟩
    simp [Raises, toRaise, htasks]

theorem Tidy.failed (h : p.Tidy n queued) (htasks : p.tasks = []) :
    p.failed.Tidy n queued ∧ (p.failed.Raises ↔ p.Raises) := by
  cases hreport : p.report with
  | none => simpa [Polled.failed, hreport] using h
  | some r =>
    by_cases hoff : r.state = .OFFLINE
    · simpa [Polled.failed, hreport, hoff] using h
    · have hne : p.state ≠ some NodeState.OFFLINE := by
        rw [state, hreport, Option.map_some]
        exact fun heq => hoff (Option.some.inj heq)
      have hchanges : (p.store { r with state := .OFFLINE }).changes = p.changes ++ [.OFFLINE] :=
        changes_store_of_ne h (Or.inr rfl) hne
      have hfailed : p.failed = { p.store { r with state := .OFFLINE } with
          tasks := [.announcing { r with state := .OFFLINE }] } := by
        simp [Polled.failed, hreport, hoff, htasks]
      rw [hfailed]
      have hown : Own n { r with state := .OFFLINE } := ⟨h.owner r hreport, Or.inr rfl⟩
      refine ⟨h.store hown ⟨hown.1, rfl, p.changes, hchanges, h.phase_of htasks⟩, ?_⟩
      · have hidle : p.toRaise = [] := by simp [toRaise, htasks]
        rw [raises_of_idle hidle, Raises]
        simp only [hchanges, toRaise, List.flatMap_cons, List.flatMap_nil, List.append_nil]
        exact List.append_sublist_append_right [NodeState.OFFLINE]

theorem suffix_concat {raised : List NodeState} (h : queued <:+ raised) (s : NodeState) :
    queued ++ [s] <:+ raised ++ [s] := by
  obtain ⟨before, hbefore⟩ := h
  exact ⟨before, by rw [← hbefore, List.append_assoc]⟩

/-- The event of a first contact is put on the channel. -/
theorem Tidy.sent (h : p.Tidy n queued) {r : NodeStatusReport} (htasks : p.tasks = [.sending r]) :
    Tidy n (queued ++ [r.state])
        { p with tasks := [.storing r true], raised := p.raised ++ [r.state] } ∧
      (Raises { p with tasks := [.storing r true], raised := p.raised ++ [r.state] } ↔
        p.Raises) := by
  obtain ⟨hown, hraised, hchanges⟩ := h.phase_of htasks
  refine ⟨⟨h.recorded, h.known, h.owner, suffix_concat h.queue r.state, hown, ?_, hchanges⟩, ?_⟩
  · simp [hraised]
  · simp [Raises, hchanges]

/-- The event of a failed node is put on the channel. -/
theorem Tidy.announced (h : p.Tidy n queued) {r : NodeStatusReport}
    (htasks : p.tasks = [.announcing r]) :
    Tidy n (queued ++ [r.state]) { p with tasks := [], raised := p.raised ++ [r.state] } ∧
      (Raises { p with tasks := [], raised := p.raised ++ [r.state] } ↔ p.Raises) := by
  obtain ⟨-, hstate, before, hchanges, hraised⟩ := h.phase_of htasks
  have hsub : (p.raised ++ [r.state]).Sublist p.changes := by
    rw [hchanges, hstate]
    exact (List.append_sublist_append_right _).mpr hraised
  refine ⟨⟨h.recorded, h.known, h.owner, suffix_concat h.queue r.state, hsub⟩, ?_⟩
  simp [Raises, toRaise, htasks]

/-- The report of a first contact is stored. -/
theorem Tidy.stored_early (h : p.Tidy n queued) {r : NodeStatusReport}
    (htasks : p.tasks = [.storing r true]) :
    Tidy n queued { p.store r with tasks := [] } ∧
      (Raises { p.store r with tasks := [] } ↔ p.Raises) := by
  obtain ⟨hown, hraised, hchanges⟩ := h.phase_of htasks
  have hstored : (p.store r).changes = [r.state] := by
    rw [changes_store_of_ne h hown.2 (by simp [h.recorded, hchanges]), hchanges, List.nil_append]
  have hsame : (p.store r).raised = (p.store r).changes := hraised.trans hstored.symm
  refine ⟨h.store hown ?_, ?_⟩
  · rw [Phase, hsame]
  · rw [raises_of_idle rfl, Raises, hchanges]
    exact iff_of_true (hsame ▸ List.Sublist.refl _) (List.nil_sublist _)

/-- The report of a known node is stored. Where it has another state than the recorded one, there
is a change more than there are events. -/
theorem Tidy.stored_quiet (h : p.Tidy n queued) {r : NodeStatusReport}
    (htasks : p.tasks = [.storing r false]) :
    Tidy n queued { p.store r with tasks := [] } ∧
      (Raises { p.store r with tasks := [] } ↔ p.Raises ∧ p.state = some r.state) := by
  obtain ⟨hown, hraised, hchanges⟩ := h.phase_of htasks
  have hidle : p.toRaise = [] := by simp [toRaise, htasks]
  rw [raises_of_idle hidle, raises_of_idle rfl]
  by_cases heq : p.state = some r.state
  · have hstored := changes_store_of_eq h hown.2 heq
    refine ⟨h.store hown ?_, ?_⟩
    · rw [Phase, hstored]
      exact hraised
    · rw [hstored]
      exact ⟨fun hsub => ⟨hsub, heq⟩, fun hboth => hboth.1⟩
  · have hstored := changes_store_of_ne h hown.2 heq
    refine ⟨h.store hown ?_, iff_of_false (fun hsub => ?_) (fun hboth => heq hboth.2)⟩
    · rw [Phase, hstored]
      exact hraised.trans (List.sublist_append_left _ _)
    · rw [hstored] at hsub
      have hlong := hsub.length_le
      have hshort := hraised.length_le
      rw [List.length_append, List.length_singleton] at hlong
      change p.changes.length + 1 ≤ p.raised.length at hlong
      omega

theorem Tidy.of_suffix (h : p.Tidy n queued) {rest : List NodeState} (hrest : rest <:+ queued) :
    p.Tidy n rest :=
  ⟨h.recorded, h.known, h.owner, hrest.trans h.queue, h.phase⟩

theorem Tidy.task_eq (h : p.Tidy n queued) {i : ℕ} {t : Task} (ht : p.tasks[i]? = some t) :
    i = 0 ∧ p.tasks = [t] := by
  cases htasks : p.tasks with
  | nil => simp [htasks] at ht
  | cons t' rest =>
    cases rest with
    | nil =>
      rw [htasks, List.getElem?_singleton] at ht
      split_ifs at ht with hi
      exact ⟨hi, by rw [Option.some.inj ht]⟩
    | cons t'' rest => exact (h.phase_of htasks).elim

/-- A receiver that takes the last event finds its state, unless the goroutine of a first contact
has not stored the report yet. -/
theorem Tidy.informs (h : p.Tidy n (s :: queued)) (hraises : p.Raises) (hlast : queued = [])
    (hidle : p.toRaise = []) : p.state = some s ↔ ∀ t ∈ p.tasks, t.early = false := by
  have hend : p.raised.getLast? = some s := by
    obtain ⟨before, hbefore⟩ := h.queue
    rw [← hbefore, hlast, List.getLast?_concat]
  rw [raises_of_idle hidle] at hraises
  -- every change has its event, so the last event is about the recorded state
  have hfound : p.raised.Sublist p.changes → p.state = some s := by
    intro hraised
    rw [h.recorded, hraises.antisymm hraised, hend]
  cases htasks : p.tasks with
  | nil => exact iff_of_true (hfound (h.phase_of htasks)) (by simp)
  | cons t rest =>
    obtain ⟨-, hone⟩ := h.task_eq (i := 0) (t := t) (by rw [htasks, List.getElem?_cons_zero])
    obtain rfl : rest = [] := by simpa [htasks] using hone
    cases t with
    | sending r => simp [toRaise, htasks] at hidle
    | announcing r => simp [toRaise, htasks] at hidle
    | storing r announced =>
      cases announced with
      | false => exact iff_of_true (hfound (h.phase_of htasks).2.1) (by simp [Task.early])
      | true =>
        have hchanges : p.changes = [] := (h.phase_of htasks).2.2
        rw [h.recorded, hchanges]
        simp [Task.early]

end Polled

namespace NodeMonitor

def queued (m : NodeMonitor) (n : UInt64) : List NodeState :=
  (m.eventChannel.filter fun e => e.report.nodeId = n).map fun e => e.report.state

def Tidy (m : NodeMonitor) : Prop := ∀ n, (m.node n).Tidy n (m.queued n)

variable {m m' : NodeMonitor}

/-- Where one node is changed, and only its events are put on the channel. -/
theorem Tidy.update (h : m.Tidy) {n : UInt64} {p : Polled}
    (hnode : m'.node = Function.update m.node n p)
    (hqueued : ∀ k, k ≠ n → m'.queued k = m.queued k) (hp : p.Tidy n (m'.queued n)) :
    m'.Tidy := by
  intro k
  rw [hnode]
  by_cases hk : k = n
  · subst hk
    rw [Function.update_self]
    exact hp
  · rw [Function.update_of_ne hk, hqueued k hk]
    exact h k

/-- Where one node is changed, the law holds if it did and the node keeps it. -/
theorem lawful_update {n : UInt64} {p : Polled} {G : Prop}
    (hnode : m'.node = Function.update m.node n p) (hhandled : m'.handled = m.handled)
    (hp : p.Raises ↔ (m.node n).Raises ∧ G) : m'.Lawful ↔ m.Lawful ∧ G := by
  constructor
  · intro h
    have hn := h.raises n
    rw [hnode, Function.update_self, hp] at hn
    refine ⟨⟨fun k => ?_, hhandled ▸ h.informs⟩, hn.2⟩
    by_cases hk : k = n
    · exact hk ▸ hn.1
    · have hraises := h.raises k
      rwa [hnode, Function.update_of_ne hk] at hraises
  · rintro ⟨h, hg⟩
    refine ⟨fun k => ?_, hhandled ▸ h.informs⟩
    rw [hnode]
    by_cases hk : k = n
    · subst hk
      rw [Function.update_self]
      exact hp.mpr ⟨h.raises k, hg⟩
    · rw [Function.update_of_ne hk]
      exact h.raises k

theorem put_eq {r : NodeStatusReport} (h : m.put r = some m') :
    m' = { m with eventChannel := m.eventChannel ++ [⟨r⟩] } := by
  unfold put at h
  split_ifs at h
  exact (Option.some.inj h).symm

/-- One node is changed, and nothing is put on the channel. -/
theorem step_setNode (h : m.Tidy) {n : UInt64} {p : Polled} {G : Prop}
    (hp : p.Tidy n (m.queued n) ∧ (p.Raises ↔ (m.node n).Raises ∧ G))
    (hnode : m'.node = Function.update m.node n p) (hchannel : m'.eventChannel = m.eventChannel)
    (hhandled : m'.handled = m.handled) : m'.Tidy ∧ (m'.Lawful ↔ m.Lawful ∧ G) := by
  have hqueued : ∀ k, m'.queued k = m.queued k := fun k => by rw [queued, queued, hchannel]
  refine ⟨h.update hnode (fun k _ => hqueued k) ?_, lawful_update hnode hhandled hp.2⟩
  rw [hqueued]
  exact hp.1

/-- One node is changed, and an event of it is put on the channel. -/
theorem step_put (h : m.Tidy) {n : UInt64} {p : Polled} {r : NodeStatusReport} (hn : r.nodeId = n)
    (hp : p.Tidy n (m.queued n ++ [r.state]) ∧ (p.Raises ↔ (m.node n).Raises))
    (hput : (m.setNode n p).put r = some m') : m'.Tidy ∧ (m'.Lawful ↔ m.Lawful) := by
  have heq := put_eq hput
  have hnode : m'.node = Function.update m.node n p := by rw [heq, setNode]
  have hqueued : ∀ k, m'.queued k = m.queued k ++ if k = n then [r.state] else [] := by
    intro k
    by_cases hk : k = n
    · simp [heq, queued, setNode, hn, hk]
    · have hne : ¬n = k := fun hnk => hk hnk.symm
      simp [heq, queued, setNode, hn, hk, hne]
  constructor
  · refine h.update hnode (fun k hk => ?_) ?_
    · rw [hqueued, if_neg hk, List.append_nil]
    · rw [hqueued, if_pos rfl]
      exact hp.1
  · have hiff := lawful_update (G := True) hnode (by rw [heq, setNode]) (by simpa using hp.2)
    simpa using hiff

theorem step_proceed (h : m.Tidy) {n : UInt64} {i : ℕ} (hs : m.step (.proceed n i) = some m') :
    m'.Tidy ∧ (m'.Lawful ↔ m.Lawful ∧ m.Sound (.proceed n i)) := by
  cases ht : (m.node n).tasks[i]? with
  | none => simp [step, ht] at hs
  | some t =>
    obtain ⟨rfl, htasks⟩ := (h n).task_eq ht
    have hphase := (h n).phase_of htasks
    simp only [step, ht] at hs
    have hsound : m.Sound (.proceed n 0) ↔ ∀ r ∈ t.quiet, (m.node n).state = some r.state := by
      simp [Sound, htasks]
    rw [hsound]
    cases t with
    | sending r =>
      have hput := step_put h hphase.1.1 ((h n).sent htasks) (by simpa [htasks] using hs)
      simpa [Task.quiet] using hput
    | announcing r =>
      have hput := step_put h hphase.1 ((h n).announced htasks) (by simpa [htasks] using hs)
      simpa [Task.quiet] using hput
    | storing r announced =>
      simp only [htasks, List.eraseIdx_cons_zero, Option.some.injEq] at hs
      subst hs
      cases announced with
      | true =>
        have hstored := (h n).stored_early htasks
        exact step_setNode h ⟨hstored.1, by simpa [Task.quiet] using hstored.2⟩ rfl rfl rfl
      | false =>
        have hstored := (h n).stored_quiet htasks
        exact step_setNode h ⟨hstored.1, by simpa [Task.quiet] using hstored.2⟩ rfl rfl rfl

/-- What the receiver of the last event of a node finds, where the law has held so far. -/
theorem informed_iff (h : m.Tidy) (hlaw : m.Lawful) {e : Event} {rest : List Event}
    (hc : m.eventChannel = e :: rest) (hlast : m.isLast e rest) :
    (m.node e.report.nodeId).state = some e.report.state ↔
      ∀ t ∈ (m.node e.report.nodeId).tasks, t.early = false := by
  have hqueued : m.queued e.report.nodeId = e.report.state ::
      (rest.filter fun e' => e'.report.nodeId = e.report.nodeId).map fun e' => e'.report.state := by
    simp [queued, hc]
  simp only [isLast, Bool.and_eq_true, List.all_eq_true, decide_eq_true_eq,
    List.isEmpty_iff] at hlast
  refine Polled.Tidy.informs (hqueued ▸ h e.report.nodeId) (hlaw.raises _) ?_ hlast.2
  rw [List.map_eq_nil_iff, List.filter_eq_nil_iff]
  exact fun e' he' => by simpa using hlast.1 e' he'

theorem step_handle (h : m.Tidy) (hs : m.step .handle = some m') :
    m'.Tidy ∧ (m'.Lawful ↔ m.Lawful ∧ m.Sound .handle) := by
  cases hc : m.eventChannel with
  | nil => simp [step, hc] at hs
  | cons e rest =>
    simp only [step, hc, Option.some.injEq] at hs
    subst hs
    constructor
    · refine fun k => (h k).of_suffix ?_
      simp only [queued, hc]
      exact ((List.suffix_cons e rest).filter _).map _
    · have hsound : m.Sound .handle ↔
          (m.isLast e rest → ∀ t ∈ (m.node e.report.nodeId).tasks, t.early = false) := by
        simp [Sound, hc]
      rw [hsound]
      constructor
      · intro hlaw
        have hbefore : m.Lawful :=
          ⟨hlaw.raises, fun x hx => hlaw.informs x (List.mem_append_left _ hx)⟩
        refine ⟨hbefore, fun hlast => (informed_iff h hbefore hc hlast).mp ?_⟩
        exact hlaw.informs _ (List.mem_append_right _ (List.mem_singleton_self _)) hlast
      · rintro ⟨hlaw, hearly⟩
        refine ⟨hlaw.raises, fun x hx hlast => ?_⟩
        rcases List.mem_append.mp hx with hx | hx
        · exact hlaw.informs x hx hlast
        · rw [List.mem_singleton.mp hx] at hlast ⊢
          exact (informed_iff h hlaw hc hlast).mpr (hearly hlast)

/-- A step keeps the law exactly if it is sound. -/
theorem tidy_lawful_step {a : PollAction} (h : m.Tidy) (ho : m.Orderly a)
    (hs : m.step a = some m') : m'.Tidy ∧ (m'.Lawful ↔ m.Lawful ∧ m.Sound a) := by
  cases a with
  | received r =>
    cases hs
    have hp := (h r.nodeId).received ho.1 ⟨rfl, ho.2⟩
    exact step_setNode h ⟨hp.1, by simpa [Sound] using hp.2⟩ rfl rfl rfl
  | failed n =>
    cases hs
    have hp := (h n).failed ho
    exact step_setNode h ⟨hp.1, by simpa [Sound] using hp.2⟩ rfl rfl rfl
  | proceed n i => exact step_proceed h hs
  | handle => exact step_handle h hs

def new : NodeMonitor := {}

theorem tidy_new : new.Tidy := by
  intro n
  exact ⟨rfl, by simp [new, Polled.state], by simp [new], List.suffix_refl _, List.Sublist.refl _⟩

theorem lawful_new : new.Lawful := ⟨fun _ => List.nil_sublist _, by simp [new]⟩

/-- In a run in which the polls of a node come one after the other, every change of a recorded
state raises an event and the receiver of a node's last event finds the state it was raised for,
exactly if no report of a known node changes the recorded state and the event of a first contact
is taken after the report has been stored. -/
theorem lawful_iff_sound (actions : List PollAction) {m : NodeMonitor}
    (horderly : Meets step Orderly new actions) (hrun : Logic.run step new actions = some m) :
    m.Lawful ↔ Meets step Sound new actions := by
  have hiff := run_iff_meets_of (I := Lawful) (G := Sound)
    (fun _ _ _ h ho hs => (tidy_lawful_step h ho hs).1)
    (fun _ _ _ h ho hs => (tidy_lawful_step h ho hs).2) tidy_new horderly hrun
  rw [hiff]
  exact and_iff_right lawful_new

def comesAndFails : List PollAction :=
  [.received ⟨1, .ONLINE, []⟩, .proceed 1 0, .proceed 1 0, .handle, .failed 1, .proceed 1 0,
    .handle]

theorem lawful_comesAndFails :
    ∃ m, Logic.run step new comesAndFails = some m ∧
      (m.node 1).changes = [.ONLINE, .OFFLINE] ∧ m.Lawful := by
  obtain ⟨m, hrun⟩ : ∃ m, Logic.run step new comesAndFails = some m :=
    Option.isSome_iff_exists.mp (by decide +kernel)
  have hchanges : (Logic.run step new comesAndFails).map (fun m => (m.node 1).changes) =
      some [.ONLINE, .OFFLINE] := by decide +kernel
  rw [hrun, Option.map_some, Option.some.injEq] at hchanges
  have hsound : Meets step Sound new comesAndFails := by decide +kernel
  exact ⟨m, hrun, hchanges, (lawful_iff_sound comesAndFails (by decide +kernel) hrun).mpr hsound⟩

def comesBack : List PollAction :=
  comesAndFails ++ [.received ⟨1, .ONLINE, []⟩, .proceed 1 0]

def takenEarly : List PollAction := [.received ⟨1, .ONLINE, []⟩, .proceed 1 0, .handle]

/-- No event tells that node 1 is back, and a receiver that is fast finds no report of it. -/
theorem recovery_raises_no_event :
    (∃ m, Logic.run step new comesBack = some m ∧ (m.node 1).tasks = [] ∧
      (m.node 1).changes = [.ONLINE, .OFFLINE, .ONLINE] ∧ (m.node 1).raised = [.ONLINE, .OFFLINE] ∧
      ¬m.Lawful) ∧
    ∃ m, Logic.run step new takenEarly = some m ∧
      m.handled = [⟨⟨⟨1, .ONLINE, []⟩⟩, true, none⟩] ∧ ¬m.Lawful := by
  constructor
  · obtain ⟨m, hrun⟩ : ∃ m, Logic.run step new comesBack = some m :=
      Option.isSome_iff_exists.mp (by decide +kernel)
    have hnode : (Logic.run step new comesBack).map (fun m => m.node 1) =
        some ⟨some ⟨1, .ONLINE, []⟩, [], [.ONLINE, .OFFLINE, .ONLINE], [.ONLINE, .OFFLINE]⟩ := by
      decide +kernel
    rw [hrun, Option.map_some, Option.some.injEq] at hnode
    refine ⟨m, hrun, by rw [hnode], by rw [hnode], by rw [hnode], fun hlaw => ?_⟩
    have hraises := hlaw.raises 1
    rw [hnode] at hraises
    exact absurd hraises.length_le (by decide)
  · obtain ⟨m, hrun⟩ : ∃ m, Logic.run step new takenEarly = some m :=
      Option.isSome_iff_exists.mp (by decide +kernel)
    have hhandled : (Logic.run step new takenEarly).map handled =
        some [⟨⟨⟨1, .ONLINE, []⟩⟩, true, none⟩] := by decide +kernel
    rw [hrun, Option.map_some, Option.some.injEq] at hhandled
    refine ⟨m, hrun, hhandled, fun hlaw => ?_⟩
    have hinforms := hlaw.informs ⟨⟨⟨1, .ONLINE, []⟩⟩, true, none⟩ (by simp [hhandled]) rfl
    cases hinforms

end NodeMonitor

end Ecos.Watcher
