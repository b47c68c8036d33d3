import Ecos.Alaya.RaftNodes
import Ecos.Logic.Machine

namespace Ecos.Alaya
open Moon Logic

/-- Where `Alaya.Run` is. -/
inductive RunLoop where
  | notCalled
  | waiting
  /-- between the deletions from `PGMessageChans` and `PGRaftNode` -/
  | deleting (pgID : UInt64)
  | returned
  deriving DecidableEq, Repr

structure Process where
  node : Node
  /-- the callback in `ApplyNewPipelines`: the pipelines it has still to look at, and the old ones -/
  updating : Option (List Pipeline × Option ClusterPipelines) := none
  loop : RunLoop := .notCalled
  deriving DecidableEq, Repr

inductive Action where
  /-- a callback takes the mutex and gets to the loop of `ApplyNewPipelines`, or returns -/
  | receive (byTerm : UInt64 → ClusterInfo) (info : ClusterInfo)
  | place
  | unlock
  | run
  /-- a raft node stops itself -/
  | stopped (pgID : UInt64)
  | deleteNode
  | cleanup

namespace Process

variable (select : Select)

/-- `NewAlaya` has returned. -/
def init (selfID : UInt64) (byTerm : UInt64 → ClusterInfo) (info : ClusterInfo) : Option Process :=
  (Node.newAlaya select selfID byTerm info).map fun a => { node := a }

def receive (s : Process) (byTerm : UInt64 → ClusterInfo) (info : ClusterInfo) : Option Process :=
  let a := { s.node with state := .UPDATING }
  match a.pipelinesOf select byTerm info with
  | none => some { s with node := a }
  | some (p, old) => do
    let a ← a.proposeNewPipelines p
    return { s with node := a, updating := some (p.metaPipelines, old) }

def step (s : Process) : Action → Option Process
  | .receive byTerm info => if s.updating = none then s.receive select byTerm info else none
  | .place =>
    match s.updating with
    | some (p :: ps, old) => do
      let a ← s.node.placePipeline old p
      return { s with node := a, updating := some (ps, old) }
    | _ => none
  | .unlock =>
    match s.updating with
    | some ([], _) => some { s with node := { s.node with state := .RUNNING }, updating := none }
    | _ => none
  | .run =>
    if s.updating = none ∧ s.loop = .notCalled
    then some { s with node := s.node.run, loop := .waiting } else none
  | .stopped pgID =>
    if s.loop = .waiting then
      some { s with node := s.node.delete (.chan pgID), loop := .deleting pgID }
    else none
  | .deleteNode =>
    match s.loop with
    | .deleting pgID => some { s with node := s.node.delete (.node pgID), loop := .waiting }
    | _ => none
  | .cleanup =>
    if s.updating = none ∧ s.loop = .waiting
    then some { s with node := { s.node with state := .STOPPED }, loop := .returned } else none

/-- The rounds of a callback that nothing interrupts are `ApplyNewPipelines`. -/
theorem run_place {s : Process} {ps : List Pipeline} {old : Option ClusterPipelines} {a : Node}
    (hs : s.updating = some (ps, old)) (ha : ps.foldlM (Node.placePipeline old) s.node = some a) :
    Logic.run (step select) s (List.replicate ps.length .place) =
      some { s with node := a, updating := some ([], old) } := by
  induction ps generalizing s with
  | nil =>
    cases ha
    rw [List.length_nil, List.replicate_zero, run_nil, ← hs]
  | cons p ps ih =>
    rw [List.foldlM_cons, Option.bind_eq_bind, Option.bind_eq_some_iff] at ha
    obtain ⟨b, hb, ha⟩ := ha
    have hstep : step select s .place = some { s with node := b, updating := some (ps, old) } := by
      simp only [step, hs, hb]
      rfl
    rw [List.length_cons, List.replicate_succ, run_cons, hstep]
    exact ih rfl ha

/-- The steps of a callback with `k` pipelines to look at. -/
def callback (byTerm : UInt64 → ClusterInfo) (info : ClusterInfo) (k : ℕ) : List Action :=
  .receive byTerm info :: (List.replicate k .place ++ [.unlock])

/-- A callback that nothing interrupts is `ApplyNewClusterInfo`. -/
theorem run_callback {s : Process} {byTerm : UInt64 → ClusterInfo} {info : ClusterInfo}
    {p : ClusterPipelines} {old : Option ClusterPipelines} {a : Node} (hs : s.updating = none)
    (hp : s.node.pipelinesOf select byTerm info = some (p, old))
    (ha : s.node.applyNewClusterInfo select byTerm info = some a) :
    Logic.run (step select) s (callback byTerm info p.metaPipelines.length) =
      some { s with node := a } := by
  have hp' : { s.node with state := .UPDATING }.pipelinesOf select byTerm info = some (p, old) := hp
  simp only [Node.applyNewClusterInfo, hp', Node.applyNewPipelines, bind,
    Option.bind_eq_some_iff] at ha
  obtain ⟨c, ⟨b, hb, hc⟩, hac⟩ := ha
  have hreceive : step select s (.receive byTerm info) =
      some { s with node := b, updating := some (p.metaPipelines, old) } := by
    simp only [step, hs, if_true, receive, hp', hb]
    rfl
  rw [callback, run_cons, hreceive, Option.bind_some, run_append, run_place select rfl hc,
    Option.bind_some, run_cons, ← Option.some.inj hac]
  simp only [step, Option.bind_some, run_nil, hs]

end Process

namespace Node

variable {a b : Node} {d : Deletion} {old : Option ClusterPipelines} {ps : List Pipeline}

def deletes (a : Node) (ds : List Deletion) : Node := ds.foldl delete a

theorem deletes_cons (a : Node) (d : Deletion) (ds : List Deletion) :
    a.deletes (d :: ds) = (a.delete d).deletes ds := rfl

theorem deletes_concat (a : Node) (ds : List Deletion) (d : Deletion) :
    a.deletes (ds ++ [d]) = (a.deletes ds).delete d := List.foldl_append

theorem delete_comm (a : Node) (d d' : Deletion) :
    (a.delete d).delete d' = (a.delete d').delete d := by
  cases d <;> cases d' <;> simp [delete, List.filter_filter, Bool.and_comm]

theorem makeAlayaRaftInPipeline_delete {p : Pipeline} (h : d.pgID ≠ p.pgId)
    (oldP : Option Pipeline) : (a.delete d).makeAlayaRaftInPipeline p oldP =
      (a.makeAlayaRaftInPipeline p oldP).delete d := by
  cases d with
  | chan pgID =>
    have hne : p.pgId ≠ pgID := Ne.symm h
    by_cases hmem : p.pgId ∈ a.pgMessageChans
    · simp [makeAlayaRaftInPipeline, delete, hmem, hne]
    · simp [makeAlayaRaftInPipeline, delete, hmem, hne]
  | node pgID =>
    have hne : (newAlayaRaft a.made p oldP).pgID ≠ pgID := Ne.symm h
    simp [makeAlayaRaftInPipeline, delete, hne, List.filter_filter, Bool.and_comm]

theorem runRaftNode_delete (a : Node) (d : Deletion) (pgID : UInt64) :
    (a.delete d).runRaftNode pgID = (a.runRaftNode pgID).delete d := by
  cases d with
  | chan pgID' => rfl
  | node pgID' =>
    have hrun : ∀ r : Raft, (if r.pgID = pgID then r.run else r).pgID = r.pgID := by
      intro r
      split_ifs
      · rfl
      · rfl
    simp only [runRaftNode, delete, List.filter_map, Function.comp_def, hrun]

theorem mem_pgMessageChans_delete {pgID : UInt64} (h : d.pgID ≠ pgID) :
    pgID ∈ (a.delete d).pgMessageChans ↔ pgID ∈ a.pgMessageChans := by
  cases d with
  | chan pgID' =>
    have hne : pgID ≠ pgID' := Ne.symm h
    simp [delete, hne]
  | node pgID' => rfl

@[simp] theorem delete_selfID (a : Node) (d : Deletion) : (a.delete d).selfID = a.selfID := by
  cases d <;> rfl

@[simp] theorem delete_state (a : Node) (d : Deletion) : (a.delete d).state = a.state := by
  cases d <;> rfl

/-- A round and a deletion for another group can change places. -/
theorem placePipeline_delete {p : Pipeline} (h : d.pgID ≠ p.pgId) :
    placePipeline old (a.delete d) p = (placePipeline old a p).map fun b => b.delete d := by
  unfold placePipeline
  simp only [delete_selfID, delete_state, mem_pgMessageChans_delete h,
    makeAlayaRaftInPipeline_delete h, runRaftNode_delete]
  split_ifs
  · rfl
  · cases oldPipeline old p.pgId with
    | none => rfl
    | some oldP =>
      simp only [bind, Option.bind_some, pure, Option.map_some]
      split_ifs
      · rfl
      · rfl
  · rfl

theorem rounds_delete (h : ∀ p ∈ ps, d.pgID ≠ p.pgId)
    (hb : ps.foldlM (placePipeline old) a = some b) :
    ps.foldlM (placePipeline old) (a.delete d) = some (b.delete d) := by
  induction ps generalizing a with
  | nil =>
    cases hb
    rfl
  | cons p ps ih =>
    rw [List.foldlM_cons, Option.bind_eq_bind, Option.bind_eq_some_iff] at hb
    obtain ⟨c, hc, hb⟩ := hb
    rw [List.foldlM_cons, placePipeline_delete (h p List.mem_cons_self), hc]
    exact ih (fun q hq => h q (List.mem_cons_of_mem p hq)) hb

theorem placePipeline_deletes {p : Pipeline} {ds : List Deletion}
    (h : ∀ d ∈ ds, d.pgID ≠ p.pgId) : placePipeline old (a.deletes ds) p =
      (placePipeline old a p).map fun b => b.deletes ds := by
  induction ds generalizing a with
  | nil => exact Option.map_id'.symm
  | cons d ds ih =>
    have hrest := @ih (a.delete d) fun d' hd' => h d' (List.mem_cons_of_mem d hd')
    rw [placePipeline_delete (h d List.mem_cons_self), Option.map_map] at hrest
    exact hrest

theorem deletes_comm (a : Node) (ds : List Deletion) (d : Deletion) :
    (a.delete d).deletes ds = (a.deletes ds).delete d := by
  induction ds generalizing a with
  | nil => rfl
  | cons d' ds ih => rw [deletes_cons, deletes_cons, delete_comm, ih]

theorem mapM_filter {α β : Type} {f : α → Option β} {P : α → Bool} {Q : β → Bool}
    (hf : ∀ x y, f x = some y → Q y = P x) {xs : List α} {ys : List β}
    (h : xs.mapM f = some ys) : (xs.filter P).mapM f = some (ys.filter Q) := by
  induction xs generalizing ys with
  | nil =>
    cases h
    rfl
  | cons x xs ih =>
    rw [List.mapM_cons] at h
    simp only [bind, Option.bind_eq_some_iff] at h
    obtain ⟨y, hy, zs, hzs, hys⟩ := h
    cases hys
    rw [List.filter_cons, List.filter_cons, hf x y hy]
    split_ifs
    · rw [List.mapM_cons, hy, ih hzs]
      rfl
    · exact ih hzs

/-- A deletion can be made before every raft node gets its new pipeline. -/
theorem proposeNewPipelines_delete {pipelines : ClusterPipelines}
    (h : a.proposeNewPipelines pipelines = some b) (d : Deletion) :
    (a.delete d).proposeNewPipelines pipelines = some (b.delete d) := by
  simp only [proposeNewPipelines, bind, Option.bind_eq_some_iff] at h
  obtain ⟨rafts, hrafts, hb⟩ := h
  cases hb
  cases d with
  | chan pgID =>
    simp only [proposeNewPipelines, delete, hrafts]
    rfl
  | node pgID =>
    have hkeep : ∀ r r' : Raft,
        (pipelines.getMetaPipeline r.pgID).map r.proposeNewPipeline = some r' →
          decide (r'.pgID ≠ pgID) = decide (r.pgID ≠ pgID) := by
      intro r r' hr
      obtain ⟨p, -, rfl⟩ := Option.map_eq_some_iff.mp hr
      obtain ⟨q, hq⟩ := r.proposeNewPipeline_eq p
      rw [hq]
    simp only [proposeNewPipelines, delete, mapM_filter hkeep hrafts]
    rfl

theorem proposeNewPipelines_deletes {pipelines : ClusterPipelines}
    (h : a.proposeNewPipelines pipelines = some b) (ds : List Deletion) :
    (a.deletes ds).proposeNewPipelines pipelines = some (b.deletes ds) := by
  induction ds generalizing a b with
  | nil => exact h
  | cons d ds ih => exact ih (proposeNewPipelines_delete h d)

theorem deletes_setState (a : Node) (ds : List Deletion) (state : State) :
    ({ a with state } : Node).deletes ds = { a.deletes ds with state } := by
  induction ds generalizing a with
  | nil => rfl
  | cons d ds ih =>
    have hdelete : ({ a with state } : Node).delete d = { a.delete d with state } := by
      cases d <;> rfl
    rw [deletes_cons, deletes_cons, hdelete, ih]

theorem pipelinesOf_deletes (select : Select) (a : Node) (ds : List Deletion)
    (byTerm : UInt64 → ClusterInfo) (info : ClusterInfo) :
    (a.deletes ds).pipelinesOf select byTerm info = a.pipelinesOf select byTerm info := by
  induction ds generalizing a with
  | nil => rfl
  | cons d ds ih =>
    rw [deletes_cons, ih]
    cases d <;> rfl

/-- The whole callback, with deletions before it. -/
theorem applyNewClusterInfo_deletes {select : Select} {byTerm : UInt64 → ClusterInfo}
    {info : ClusterInfo} {p : ClusterPipelines} {c : Node}
    (hp : a.pipelinesOf select byTerm info = some (p, old))
    (hb : ({ a with state := .UPDATING } : Node).proposeNewPipelines p = some b)
    {ds : List Deletion}
    (hc : p.metaPipelines.foldlM (placePipeline old) (b.deletes ds) = some c) :
    (a.deletes ds).applyNewClusterInfo select byTerm info = some { c with state := .RUNNING } := by
  have hp' : ({ a.deletes ds with state := .UPDATING } : Node).pipelinesOf select byTerm info =
      some (p, old) := by
    rw [← deletes_setState, pipelinesOf_deletes]
    exact hp
  have hb' : ({ a.deletes ds with state := .UPDATING } : Node).proposeNewPipelines p =
      some (b.deletes ds) := by
    rw [← deletes_setState]
    exact proposeNewPipelines_deletes hb ds
  simp only [applyNewClusterInfo, hp', applyNewPipelines, hb', hc, bind, Option.bind_some, pure]

end Node

namespace Process

/-- Where a callback stands that has done some of its rounds: the deletions of groups that it had
not looked at yet come before all rounds, the others after them. -/
structure Interrupted (b : Node) (ps : List Pipeline) (old : Option ClusterPipelines) (s : Process)
    (done rest : List Pipeline) (before after : List Deletion) (c : Node) : Prop where
  split : done ++ rest = ps
  updating : s.updating = some (rest, old)
  rounds : done.foldlM (Node.placePipeline old) (b.deletes before) = some c
  node : s.node = c.deletes after
  seen : ∀ d ∈ after, d.pgID ∈ done.map Pipeline.pgId

namespace Interrupted

variable {b c : Node} {ps done rest : List Pipeline} {old : Option ClusterPipelines}
  {s : Process} {before after : List Deletion}

theorem place {p : Pipeline} (h : Interrupted b ps old s done (p :: rest) before after c)
    (hps : (ps.map Pipeline.pgId).Nodup) {a : Node}
    (ha : s.node.placePipeline old p = some a) :
    ∃ c', Interrupted b ps old { s with node := a, updating := some (rest, old) } (done ++ [p]) rest
      before after c' := by
  have hne : ∀ d ∈ after, d.pgID ≠ p.pgId := by
    intro d hd heq
    rw [← h.split, List.map_append, List.nodup_append] at hps
    exact hps.2.2 _ (h.seen d hd) _ List.mem_cons_self heq
  rw [h.node, Node.placePipeline_deletes hne, Option.map_eq_some_iff] at ha
  obtain ⟨c', hc', rfl⟩ := ha
  refine ⟨c', ⟨?_, rfl, ?_, rfl, fun d hd => ?_⟩⟩
  · rw [List.append_assoc, ← h.split]
    rfl
  · rw [List.foldlM_append, h.rounds]
    simp [hc']
  · rw [List.map_append]
    exact List.mem_append_left _ (h.seen d hd)

theorem delete (h : Interrupted b ps old s done rest before after c) (d : Deletion)
    (loop : RunLoop) :
    ∃ before' after' c', Interrupted b ps old { s with node := s.node.delete d, loop } done rest
      before' after' c' := by
  by_cases hseen : d.pgID ∈ done.map Pipeline.pgId
  · refine ⟨before, after ++ [d], c, ⟨h.split, h.updating, h.rounds, ?_, fun d' hd' => ?_⟩⟩
    · rw [Node.deletes_concat, ← h.node]
    · rcases List.mem_append.mp hd' with hd' | hd'
      · exact h.seen d' hd'
      · rwa [List.mem_singleton.mp hd']
  · -- no round so far was about this group
    refine ⟨before ++ [d], after, c.delete d, ⟨h.split, h.updating, ?_, ?_, h.seen⟩⟩
    · rw [Node.deletes_concat]
      refine Node.rounds_delete (fun p hp heq => hseen ?_) h.rounds
      rw [heq]
      exact List.mem_map_of_mem hp
    · rw [Node.deletes_comm, ← h.node]

end Interrupted

/-- While a callback holds the mutex there are its rounds and the deletions of `Run`. -/
theorem interrupted_step {select : Select} {b : Node} {ps : List Pipeline}
    {old : Option ClusterPipelines} (hps : (ps.map Pipeline.pgId).Nodup) {s s' : Process} {act : Action} (hact : act ≠ .unlock)
    (hs : ∃ done rest before after c, Interrupted b ps old s done rest before after c)
    (h : step select s act = some s') :
    ∃ done rest before after c, Interrupted b ps old s' done rest before after c := by
  obtain ⟨done, rest, before, after, c, hs⟩ := hs
  have hupdating : s.updating ≠ none := by
    rw [hs.updating]
    exact Option.some_ne_none _
  cases act with
  | receive byTerm info =>
    -- the mutex is held
    simp only [step, if_neg hupdating] at h
    cases h
  | place =>
    cases rest with
    | nil =>
      simp only [step, hs.updating] at h
      cases h
    | cons p rest =>
      simp only [step, hs.updating, bind, Option.bind_eq_some_iff] at h
      obtain ⟨a, ha, hs'⟩ := h
      cases hs'
      obtain ⟨c', hc'⟩ := hs.place hps ha
      exact ⟨_, _, _, _, _, hc'⟩
  | unlock => exact absurd rfl hact
  | run =>
    simp only [step] at h
    split_ifs at h with hfree
    exact absurd hfree.1 hupdating
  | stopped pgID =>
    simp only [step] at h
    split_ifs at h
    cases h
    obtain ⟨before', after', c', h'⟩ := hs.delete (.chan pgID) (.deleting pgID)
    exact ⟨_, _, _, _, _, h'⟩
  | deleteNode =>
    simp only [step] at h
    split at h
    · next pgID _ =>
      cases h
      obtain ⟨before', after', c', h'⟩ := hs.delete (.node pgID) .waiting
      exact ⟨_, _, _, _, _, h'⟩
    · cases h
  | cleanup =>
    simp only [step] at h
    split_ifs at h with hfree
    exact absurd hfree.1 hupdating

variable {select}

theorem receive_eq {s s' : Process} {byTerm : UInt64 → ClusterInfo} {info : ClusterInfo}
    {p : ClusterPipelines} {old : Option ClusterPipelines}
    (hp : s.node.pipelinesOf select byTerm info = some (p, old))
    (h : step select s (.receive byTerm info) = some s') :
    ∃ b, ({ s.node with state := .UPDATING } : Node).proposeNewPipelines p = some b ∧
      s' = { s with node := b, updating := some (p.metaPipelines, old) } := by
  have hp' : ({ s.node with state := .UPDATING } : Node).pipelinesOf select byTerm info =
      some (p, old) := hp
  simp only [step] at h
  split_ifs at h
  simp only [receive, hp', bind, Option.bind_eq_some_iff] at h
  obtain ⟨b, hb, hs'⟩ := h
  exact ⟨b, hb, (Option.some.inj hs').symm⟩

/-- A callback with deletions in between does what it does where these are made before or after
it. -/
theorem run_interrupted {s s' : Process} {byTerm : UInt64 → ClusterInfo} {info : ClusterInfo}
    {p : ClusterPipelines} {old : Option ClusterPipelines} {acts : List Action}
    (hp : s.node.pipelinesOf select byTerm info = some (p, old)) (hacts : .unlock ∉ acts)
    (h : Logic.run (step select) s (.receive byTerm info :: (acts ++ [.unlock])) = some s') :
    ∃ before after a, (s.node.deletes before).applyNewClusterInfo select byTerm info = some a ∧
      s'.node = a.deletes after := by
  rw [run_cons, Option.bind_eq_some_iff] at h
  obtain ⟨s₁, hreceive, h⟩ := h
  rw [run_append, Option.bind_eq_some_iff] at h
  obtain ⟨s₂, hrun, h⟩ := h
  rw [run_cons, Option.bind_eq_some_iff] at h
  obtain ⟨s₃, hunlock, h⟩ := h
  cases h
  have hps : (p.metaPipelines.map Pipeline.pgId).Nodup := by
    rw [newClusterPipelines_eq (Node.pipelinesOf_eq_some hp).1]
    exact nodup_pgId _ _ _
  obtain ⟨b, hb, rfl⟩ := receive_eq hp hreceive
  have hinit : Interrupted b p.metaPipelines old
      { s with node := b, updating := some (p.metaPipelines, old) } [] p.metaPipelines [] [] b :=
    ⟨rfl, rfl, rfl, rfl, fun d hd => absurd hd List.not_mem_nil⟩
  have hlocked : ∀ s, Meets (step select) (fun _ act => act ≠ .unlock) s acts :=
    meets_of_forall fun act hact _ heq => hacts (heq ▸ hact)
  obtain ⟨done, rest, before, after, c, hs₂⟩ := run_invariant
    (I := fun s => ∃ done rest before after c,
      Interrupted b p.metaPipelines old s done rest before after c)
    (fun _ _ _ hI hG hstep => interrupted_step hps hG hI hstep) ⟨_, _, _, _, _, hinit⟩
    (hlocked _) hrun
  cases rest with
  | cons q rest =>
    simp only [step, hs₂.updating] at hunlock
    cases hunlock
  | nil =>
    simp only [step, hs₂.updating, Option.some.injEq] at hunlock
    subst hunlock
    have hrounds := hs₂.rounds
    rw [← List.append_nil done, hs₂.split] at hrounds
    refine ⟨before, after, { c with state := .RUNNING },
      Node.applyNewClusterInfo_deletes hp hb hrounds, ?_⟩
    rw [Node.deletes_setState, ← hs₂.node]

/-- Every raft node in `PGRaftNode` was started once. -/
def StartedOnce (s : Process) : Prop := ∀ r ∈ s.node.pgRaftNode, r.runs = 1

/-- `Run` is called while `PGRaftNode` is empty. -/
def RunFirst (s : Process) (act : Action) : Prop := act = .run → s.node.pgRaftNode = []

/-- `Run` starts again what a callback has started. -/
theorem startedOnce_run_iff {s s' : Process} (hs : s.StartedOnce)
    (h : step select s .run = some s') : s'.StartedOnce ↔ s.node.pgRaftNode = [] := by
  simp only [step] at h
  split_ifs at h
  cases h
  simp only [StartedOnce, Node.run, List.mem_map, forall_exists_index, and_imp,
    forall_apply_eq_imp_iff₂, Raft.run_runs, Nat.add_eq_right]
  constructor
  · intro h0
    rw [List.eq_nil_iff_forall_not_mem]
    intro r hr
    have h1 := hs r hr
    rw [h0 r hr] at h1
    exact zero_ne_one h1
  · intro hnil r hr
    rw [hnil] at hr
    simp at hr

theorem runs_of_kept {a a' : Node} (hk : Node.Kept a a') (ha : ∀ r ∈ a.pgRaftNode, r.runs = 1) :
    ∀ r ∈ a'.pgRaftNode, r.runs = 1 := by
  intro r hr
  obtain ⟨r₀, hr₀, q, rfl⟩ := hk r hr
  exact ha r₀ hr₀

/-- While the state is `UPDATING` a round starts what it makes. -/
theorem runs_placePipeline {a a' : Node} {old : Option ClusterPipelines} {p : Pipeline}
    (h : Node.placePipeline old a p = some a') (hu : a.state = .UPDATING)
    (ha : ∀ r ∈ a.pgRaftNode, r.runs = 1) :
    a'.state = .UPDATING ∧ ∀ r ∈ a'.pgRaftNode, r.runs = 1 := by
  rcases Node.placePipeline_cases h with rfl | ⟨oldP, -, -, -, rfl⟩
  · exact ⟨hu, ha⟩
  · rw [if_pos hu]
    refine ⟨hu, fun r hr => ?_⟩
    rcases Node.mem_placed hr with rfl | hmem
    · rfl
    · exact ha r hmem

theorem runs_applyNewClusterInfo {a a' : Node} {byTerm : UInt64 → ClusterInfo} {info : ClusterInfo}
    (h : a.applyNewClusterInfo select byTerm info = some a')
    (ha : ∀ r ∈ a.pgRaftNode, r.runs = 1) : ∀ r ∈ a'.pgRaftNode, r.runs = 1 := by
  simp only [Node.applyNewClusterInfo] at h
  split at h
  · cases h
    exact ha
  · simp only [Node.applyNewPipelines, bind, Option.bind_eq_some_iff] at h
    obtain ⟨c, ⟨b, hb, hc⟩, hac⟩ := h
    cases hac
    obtain ⟨hb, hkept⟩ := Node.proposeNewPipelines_eq hb
    have hstate : b.state = .UPDATING := by rw [hb]
    have hinv := run_preserved
      (I := fun a : Node => a.state = .UPDATING ∧ ∀ r ∈ a.pgRaftNode, r.runs = 1)
      (fun b p b' hI hstep => runs_placePipeline hstep hI.1 hI.2)
      ⟨hstate, runs_of_kept hkept ha⟩ hc
    exact hinv.2

/-- While a callback is under way the state is `UPDATING`. -/
structure Sound (s : Process) : Prop where
  once : s.StartedOnce
  updating : s.updating ≠ none → s.node.state = .UPDATING

theorem sound_init {selfID : UInt64} {byTerm : UInt64 → ClusterInfo} {info : ClusterInfo}
    {s : Process} (h : init select selfID byTerm info = some s) : s.Sound := by
  simp only [init, Node.newAlaya, bind, Option.map_eq_some_iff, Option.bind_eq_some_iff] at h
  obtain ⟨b, ⟨a, ha, hb⟩, rfl⟩ := h
  cases hb
  have hruns := runs_applyNewClusterInfo ha (List.forall_mem_nil _)
  exact ⟨hruns, fun hne => absurd rfl hne⟩

theorem sound_receive {s s' : Process} {byTerm : UInt64 → ClusterInfo} {info : ClusterInfo}
    (hs : s.Sound) (h : s.receive select byTerm info = some s') : s'.Sound := by
  simp only [receive] at h
  split at h
  · cases h
    exact ⟨hs.once, fun _ => rfl⟩
  · simp only [bind, Option.bind_eq_some_iff] at h
    obtain ⟨b, hb, hs'⟩ := h
    cases hs'
    obtain ⟨hb, hkept⟩ := Node.proposeNewPipelines_eq hb
    refine ⟨runs_of_kept hkept hs.once, fun _ => ?_⟩
    rw [hb]

theorem sound_step {s : Process} {act : Action} {s' : Process} (hs : s.Sound)
    (hg : s.RunFirst act) (h : step select s act = some s') : s'.Sound := by
  cases act with
  | receive byTerm info =>
    simp only [step] at h
    split_ifs at h
    exact sound_receive hs h
  | place =>
    simp only [step] at h
    split at h
    · rename_i hu
      simp only [bind, Option.bind_eq_some_iff] at h
      obtain ⟨a, ha, hs'⟩ := h
      cases hs'
      obtain ⟨hstate, hruns⟩ := runs_placePipeline ha (hs.updating (by simp [hu])) hs.once
      exact ⟨hruns, fun _ => hstate⟩
    · cases h
  | unlock =>
    simp only [step] at h
    split at h
    · cases h
      exact ⟨hs.once, fun hne => absurd rfl hne⟩
    · cases h
  | run =>
    have honce := (startedOnce_run_iff hs.once h).mpr (hg rfl)
    simp only [step] at h
    split_ifs at h with hfree
    cases h
    exact ⟨honce, fun hne => absurd hfree.1 hne⟩
  | stopped pgID =>
    simp only [step] at h
    split_ifs at h
    cases h
    exact ⟨hs.once, hs.updating⟩
  | deleteNode =>
    simp only [step] at h
    split at h
    · cases h
      exact ⟨fun r hr => hs.once r (List.mem_of_mem_filter hr), hs.updating⟩
    · cases h
  | cleanup =>
    simp only [step] at h
    split_ifs at h with hfree
    cases h
    exact ⟨hs.once, fun hne => absurd hfree.1 hne⟩

/-- In every run in which `Run` is called while `PGRaftNode` is empty each raft node that is
stored has been started exactly once. -/
theorem startedOnce_of_runFirst {selfID : UInt64} {byTerm : UInt64 → ClusterInfo}
    {info : ClusterInfo} {s₀ s : Process} (acts : List Action)
    (h₀ : init select selfID byTerm info = some s₀) (hg : Meets (step select) RunFirst s₀ acts)
    (hr : Logic.run (step select) s₀ acts = some s) : s.StartedOnce :=
  (run_invariant (fun _ _ _ hs hg h => sound_step hs hg h) (sound_init h₀) hg hr).once

instance (s : Process) (act : Action) : Decidable (s.RunFirst act) :=
  match act with
  | .run => decidable_of_iff (s.node.pgRaftNode = []) (by simp [RunFirst])
  | .receive _ _ | .place | .unlock | .stopped _ | .deleteNode | .cleanup =>
    isTrue (by simp [RunFirst])

def singleInfo : ClusterInfo := ⟨1, none, [⟨1, [], [], 0, 10, .ONLINE⟩], 1, 1, 1, 1, 0⟩

/-- What `NewAlaya` makes of an empty cluster info. -/
def idle : Process := { node := { selfID := 1, state := .READY } }

/-- A new node that calls `Run` at once and then gets its first cluster info. -/
theorem startedOnce_of_runFirst_single :
    ∃ s, Logic.run (step firstNodes) idle (.run :: callback (fun _ => .zero) singleInfo 1) = some s ∧
      s.node.pgRaftNode.map Raft.pgID = [1] ∧ s.StartedOnce := by
  refine ⟨_, rfl, by decide, ?_⟩
  have h₀ : init firstNodes 1 (fun _ => .zero) .zero = some idle := rfl
  exact startedOnce_of_runFirst (.run :: callback (fun _ => .zero) singleInfo 1) h₀ (by decide) rfl

/-- The cluster info comes before `Run`. -/
theorem callback_before_run_starts_twice :
    init firstNodes 1 (fun _ => .zero) .zero = some idle ∧
      ∃ s, Logic.run (step firstNodes) idle
          (callback (fun _ => .zero) singleInfo 1 ++ [.run]) = some s ∧
        s.node.pgRaftNode.map Raft.runs = [2] ∧ ¬ s.StartedOnce := by
  refine ⟨rfl, _, rfl, by decide, ?_⟩
  intro h
  have := h _ List.mem_cons_self
  revert this
  decide

end Process

end Ecos.Alaya
