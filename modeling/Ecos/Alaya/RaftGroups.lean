import Ecos.Alaya.RaftStart

namespace Ecos.Alaya
open Moon Logic

structure History where
  infos : List ClusterInfo
  linked : Linked infos

namespace History

variable (h : History)

/-- The cluster info of a term on a node that has stored the infos up to number `k`. -/
def lookUp (k : ℕ) (term : UInt64) : Option ClusterInfo :=
  (h.infos.take (k + 1)).reverse.find? fun info => info.term = term

/-- `GetClusterInfoByTerm` on a node that has stored the infos up to number `k`. -/
def byTerm (k : ℕ) (term : UInt64) : ClusterInfo := (h.lookUp k term).getD .zero

theorem pairwise_term_lt :
    (ClusterInfo.zero :: h.infos).Pairwise fun a b => a.term < b.term := by
  have hc : (ClusterInfo.zero :: h.infos).IsChain fun a b => a.term < b.term :=
    h.linked.imp fun _ _ hs => hs.2
  have : IsTrans ClusterInfo fun a b => a.term < b.term := ⟨fun _ _ _ => UInt64.lt_trans⟩
  exact List.isChain_iff_pairwise.mp hc

theorem term_lt {i j : ℕ} {a b : ClusterInfo} (hij : i < j) (ha : h.infos[i]? = some a)
    (hb : h.infos[j]? = some b) : a.term < b.term := by
  obtain ⟨hi, rfl⟩ := List.getElem?_eq_some_iff.mp ha
  obtain ⟨hj, rfl⟩ := List.getElem?_eq_some_iff.mp hb
  exact List.pairwise_iff_getElem.mp h.pairwise_term_lt.tail i j hi hj hij

theorem succeeds {k : ℕ} {a b : ClusterInfo} (ha : h.infos[k]? = some a)
    (hb : h.infos[k + 1]? = some b) : a.Succeeds b := by
  obtain ⟨hi, rfl⟩ := List.getElem?_eq_some_iff.mp ha
  obtain ⟨hj, rfl⟩ := List.getElem?_eq_some_iff.mp hb
  exact List.isChain_iff_getElem.mp (List.IsChain.tail h.linked) k hj

theorem term_ne_zero {k : ℕ} {info : ClusterInfo} (hk : h.infos[k]? = some info) :
    info.term ≠ 0 := by
  have hpos : (0 : UInt64) < info.term :=
    (List.pairwise_cons.mp h.pairwise_term_lt).1 info (List.mem_of_getElem? hk)
  exact (UInt64.ne_of_lt hpos).symm

theorem term_injective {a b : ClusterInfo} (ha : a ∈ h.infos) (hb : b ∈ h.infos)
    (hab : a.term = b.term) : a = b := by
  obtain ⟨i, hi⟩ := List.mem_iff_getElem?.mp ha
  obtain ⟨j, hj⟩ := List.mem_iff_getElem?.mp hb
  rcases Nat.lt_trichotomy i j with hij | rfl | hij
  · exact absurd (h.term_lt hij hi hj) (by rw [hab]; exact UInt64.lt_irrefl _)
  · exact Option.some.inj (hi.symm.trans hj)
  · exact absurd (h.term_lt hij hj hi) (by rw [hab]; exact UInt64.lt_irrefl _)

theorem lookUp_eq {j k : ℕ} {info : ClusterInfo} (hj : h.infos[j]? = some info) (hjk : j ≤ k) :
    h.lookUp k info.term = some info := by
  have hmem : info ∈ (h.infos.take (k + 1)).reverse := by
    rw [List.mem_reverse, List.mem_iff_getElem?]
    exact ⟨j, by rw [List.getElem?_take_of_lt (by omega), hj]⟩
  have hsome : ((h.infos.take (k + 1)).reverse.find? fun i => i.term = info.term).isSome := by
    rw [List.find?_isSome]
    exact ⟨info, hmem, by simp⟩
  obtain ⟨i, hi⟩ := Option.isSome_iff_exists.mp hsome
  have hin : i ∈ h.infos :=
    List.mem_of_mem_take (List.mem_reverse.mp (List.mem_of_find?_eq_some hi))
  have hterm : i.term = info.term := by simpa using List.find?_some hi
  rw [lookUp, hi, h.term_injective hin (List.mem_of_getElem? hj) hterm]

theorem byTerm_eq {j k : ℕ} {info : ClusterInfo} (hj : h.infos[j]? = some info) (hjk : j ≤ k) :
    h.byTerm k info.term = info := by
  rw [byTerm, h.lookUp_eq hj hjk, Option.getD_some]

end History

structure Cluster where
  node : UInt64 → Node
  /-- how many infos of the history the node has received -/
  received : UInt64 → ℕ

inductive Event where
  | receive (n : UInt64)
  /-- the two deletions of `Run` for a raft node that has stopped -/
  | deleteChan (n pgID : UInt64)
  | deleteNode (n pgID : UInt64)
  deriving DecidableEq, Repr

namespace Cluster

variable (select : Select) (h : History)

/-- Every node as `NewAlaya` makes it of an empty cluster info. -/
def init : Cluster where
  node n := { selfID := n, state := .READY }
  received _ := 0

def setNode (c : Cluster) (n : UInt64) (a : Node) : Cluster :=
  { c with node := Function.update c.node n a }

def step (c : Cluster) : Event → Option Cluster
  | .receive n => do
    let info ← h.infos[c.received n]?
    let a ← (c.node n).applyNewClusterInfo select (h.byTerm (c.received n)) info
    return { c.setNode n a with received := Function.update c.received n (c.received n + 1) }
  | .deleteChan n pgID => some (c.setNode n ((c.node n).delete (.chan pgID)))
  | .deleteNode n pgID => some (c.setNode n ((c.node n).delete (.node pgID)))

def deletion (n : UInt64) : Deletion → Event
  | .chan pgID => .deleteChan n pgID
  | .node pgID => .deleteNode n pgID

def deletions (n : UInt64) (ds : List Deletion) : List Event := ds.map (deletion n)

theorem run_deletions (c : Cluster) (n : UInt64) (ds : List Deletion) :
    Logic.run (step select h) c (deletions n ds) =
      some (c.setNode n ((c.node n).deletes ds)) := by
  induction ds generalizing c with
  | nil => simp [deletions, setNode, Node.deletes]
  | cons d ds ih =>
    have hstep : step select h c (deletion n d) =
        some (c.setNode n ((c.node n).delete d)) := by
      cases d <;> rfl
    rw [deletions, List.map_cons, run_cons, hstep, Option.bind_some, ← deletions, ih]
    simp [setNode, Node.deletes_cons]

/-- Whatever deletions fall between the steps of a callback, the node ends as in a run of these
events. -/
theorem run_callback {c : Cluster} {n : UInt64} {s s' : Process} {acts : List Action}
    {info : ClusterInfo} {p : ClusterPipelines} {old : Option ClusterPipelines}
    (hs : s.node = c.node n) (hinfo : h.infos[c.received n]? = some info)
    (hp : s.node.pipelinesOf select (h.byTerm (c.received n)) info = some (p, old))
    (hacts : .unlock ∉ acts)
    (hrun : Logic.run (Process.step select) s
      (.receive (h.byTerm (c.received n)) info :: (acts ++ [.unlock])) = some s') :
    ∃ before after c', Logic.run (step select h) c
        (deletions n before ++ .receive n :: deletions n after) = some c' ∧
      c'.node n = s'.node := by
  obtain ⟨before, after, a, ha, hs'⟩ := Process.run_interrupted hp hacts hrun
  rw [hs] at ha
  have hreceive : step select h (c.setNode n ((c.node n).deletes before)) (.receive n) =
      some ⟨Function.update c.node n a, Function.update c.received n (c.received n + 1)⟩ := by
    simp [step, setNode, hinfo, ha]
  have hall : Logic.run (step select h) c (deletions n before ++ .receive n :: deletions n after) =
      some (setNode ⟨Function.update c.node n a, Function.update c.received n (c.received n + 1)⟩ n
        (a.deletes after)) := by
    rw [run_append, run_deletions, Option.bind_some, run_cons, hreceive, Option.bind_some,
      run_deletions]
    simp only [Function.update_self]
  refine ⟨before, after, _, hall, ?_⟩
  rw [hs']
  exact Function.update_self n _ _

/-- Between `c` and `c'` a node made a raft node without an old pipeline for a group of which
some node ran a raft node made under an earlier term. -/
def SecondGroup (c c' : Cluster) : Prop :=
  ∃ n m, ∃ r ∈ (c'.node n).pgRaftNode, (c.node n).made ≤ r.addr ∧ r.oldP = none ∧
    ∃ r' ∈ (c.node m).pgRaftNode, r'.pgID = r.pgID ∧
      r'.nowPipe.clusterTerm < r.nowPipe.clusterTerm

/-- A node receives an info when no earlier one had healthy nodes enough, or the last one had,
or it already has channels for all groups that the info places on it. -/
def Sustained (c : Cluster) : Event → Prop
  | .receive n =>
    (∀ info ∈ h.infos.take (c.received n), ¬ Enough select info) ∨
      (∃ info ∈ h.infos[c.received n - 1]?, Enough select info) ∨
      ∀ info ∈ h.infos[c.received n]?, ∀ p ∈ genMetaPipelines select info,
        n ∈ p.raftId → p.pgId ∈ (c.node n).pgMessageChans
  | _ => True

instance (c : Cluster) (e : Event) : Decidable (Sustained select h c e) := by
  unfold Sustained
  split <;> infer_instance

variable {select h}

variable (select h) in
/-- The raft node was made for an info with healthy nodes enough; if it was made without an old
pipeline, that info was the first such one. -/
def Rooted (r : Raft) : Prop :=
  ∃ k info, h.infos[k]? = some info ∧ Enough select info ∧ r.nowPipe.clusterTerm = info.term ∧
    (r.oldP = none → ∀ i ∈ h.infos.take k, ¬ Enough select i)

variable (select h) in
structure Sound (c : Cluster) : Prop where
  selfID : ∀ n, (c.node n).selfID = n
  rooted : ∀ n, ∀ r ∈ (c.node n).pgRaftNode, Rooted select h r

theorem sound_init : Sound select h init := ⟨fun _ => rfl, fun _ _ hr => by simp [init] at hr⟩

theorem Rooted.congr {r r' : Raft} (hr : Rooted select h r) (hp : r'.nowPipe = r.nowPipe)
    (ho : r'.oldP = r.oldP) : Rooted select h r' := by
  unfold Rooted
  rw [hp, ho]
  exact hr

theorem sound_setNode {c : Cluster} (hc : Sound select h c) {n : UInt64} {a : Node}
    (hself : a.selfID = n) (ha : ∀ r ∈ a.pgRaftNode, Rooted select h r) :
    Sound select h (c.setNode n a) := by
  constructor
  · intro m
    by_cases hm : m = n
    · subst hm
      simpa [setNode] using hself
    · simpa [setNode, hm] using hc.selfID m
  · intro m
    by_cases hm : m = n
    · subst hm
      simpa [setNode] using ha
    · simpa [setNode, hm] using hc.rooted m

/-- Only where the info before had too few healthy nodes are there no old pipelines. -/
theorem not_enough_of_oldPipelines {a : Node} {k : ℕ} {info last : ClusterInfo}
    (hinfo : h.infos[k + 1]? = some info) (hlast : h.infos[k]? = some last)
    (hnone : a.oldPipelines select (h.byTerm (k + 1)) info = none) : ¬ Enough select last := by
  have hterm : info.lastTerm = last.term := (h.succeeds hlast hinfo).1
  have hpos : last.term ≠ 0 := h.term_ne_zero hlast
  rw [Node.oldPipelines, hterm, if_pos hpos, h.byTerm_eq hlast (Nat.le_succ k)] at hnone
  exact toOption_eq_none_iff.mp hnone

theorem rooted_of_made {c : Cluster} {n : UInt64} (hself : (c.node n).selfID = n)
    (hg : Sustained select h c (.receive n)) {info : ClusterInfo} {r : Raft}
    (hinfo : h.infos[c.received n]? = some info) (henough : Enough select info)
    (hr : Node.Made (c.node n) (genMetaPipelines select info)
      ((c.node n).oldPipelines select (h.byTerm (c.received n)) info) r) :
    Rooted select h r := by
  obtain ⟨hp, hmem, hchan, hold⟩ := hr
  refine ⟨c.received n, info, hinfo, henough, clusterTerm_of_mem hp, fun hnone => ?_⟩
  rw [hnone] at hold
  have hold := Node.oldPipeline_eq_none hold
  rcases hg with hfirst | ⟨last, hlast, hl⟩ | hplaced
  · exact hfirst
  · cases hk : c.received n with
    | zero => simp
    | succ k =>
      rw [hk] at hinfo hlast hold
      exact absurd hl (not_enough_of_oldPipelines hinfo hlast hold)
  · exact absurd (hplaced info hinfo _ hp (hself ▸ hmem)) hchan

theorem sound_step {c c' : Cluster} {e : Event} (hc : Sound select h c)
    (hg : Sustained select h c e) (hs : step select h c e = some c') : Sound select h c' := by
  cases e with
  | receive n =>
    simp only [step, bind, Option.bind_eq_some_iff] at hs
    obtain ⟨info, hinfo, a, ha, hc'⟩ := hs
    cases hc'
    obtain ⟨hself, hrafts⟩ := Node.applyNewClusterInfo_spec ha
    have hrooted : ∀ r ∈ a.pgRaftNode, Rooted select h r := by
      intro r hr
      rcases hrafts r hr with ⟨r₀, hr₀, q, rfl⟩ | ⟨henough, hmade⟩
      · exact (hc.rooted n r₀ hr₀).congr rfl rfl
      · exact rooted_of_made (hc.selfID n) hg hinfo henough hmade
    have hset := sound_setNode hc (hself.trans (hc.selfID n)) hrooted
    exact ⟨hset.selfID, hset.rooted⟩
  | deleteChan n pgID =>
    cases hs
    exact sound_setNode hc (hc.selfID n) (hc.rooted n)
  | deleteNode n pgID =>
    cases hs
    exact sound_setNode hc (hc.selfID n) fun r hr => hc.rooted n r (List.mem_of_mem_filter hr)

/-- A raft node made without an old pipeline belongs to the first term with healthy nodes enough,
so none was made under an earlier term. -/
theorem Rooted.not_earlier {r r' : Raft} (hr : Rooted select h r) (hr' : Rooted select h r')
    (hfresh : r.oldP = none) : ¬ r'.nowPipe.clusterTerm < r.nowPipe.clusterTerm := by
  obtain ⟨k, info, hinfo, -, hterm, hfirst⟩ := hr
  obtain ⟨k', info', hinfo', henough', hterm', -⟩ := hr'
  rw [hterm, hterm']
  intro hlt
  have hk : k' < k := by
    by_contra hge
    rcases Nat.lt_or_eq_of_le (Nat.le_of_not_lt hge) with hkk | rfl
    · exact UInt64.lt_asymm hlt (h.term_lt hkk hinfo hinfo')
    · rw [hinfo] at hinfo'
      rw [Option.some.inj hinfo'] at hlt
      exact UInt64.lt_irrefl _ hlt
  have hmem : info' ∈ h.infos.take k := by
    rw [List.mem_iff_getElem?]
    exact ⟨k', by rw [List.getElem?_take_of_lt hk, hinfo']⟩
  exact hfirst hfresh info' hmem henough'

variable (select h) in
/-- In every run in which the infos are received as `Sustained` says, no step makes a second
group. -/
theorem no_secondGroup_of_sustained (es : List Event) (e : Event) {c c' : Cluster}
    (hg : Meets (step select h) (Sustained select h) init es)
    (hr : Logic.run (step select h) init es = some c)
    (hge : Sustained select h c e) (hs : step select h c e = some c') : ¬ SecondGroup c c' := by
  have hsound : Sound select h c :=
    run_invariant (fun _ _ _ hc hg hs => sound_step hc hg hs) sound_init hg hr
  rintro ⟨n, m, r, hmem, -, hfresh, r', hmem', -, hlt⟩
  exact ((sound_step hsound hge hs).rooted n r hmem).not_earlier (hsound.rooted m r' hmem')
    hfresh hlt

def threeNodesInfo (term lastTerm : UInt64) (nodes : List (UInt64 × NodeState)) : ClusterInfo :=
  ⟨term, none, nodes.map fun (id, state) => ⟨id, [], [], 0, 10, state⟩, 1, 3, 1, 3, lastTerm⟩

def outage : History where
  infos := [threeNodesInfo 1 0 [(3, .ONLINE), (2, .ONLINE), (1, .ONLINE)],
    threeNodesInfo 2 1 [(3, .OFFLINE), (2, .ONLINE), (1, .ONLINE)],
    threeNodesInfo 3 2 [(4, .ONLINE), (3, .ONLINE), (2, .ONLINE), (1, .ONLINE)]]
  linked := by unfold Linked; decide

def growth : History where
  infos := [threeNodesInfo 1 0 [(3, .ONLINE), (2, .ONLINE), (1, .ONLINE)],
    threeNodesInfo 2 1 [(4, .ONLINE), (3, .ONLINE), (2, .ONLINE), (1, .ONLINE)]]
  linked := by unfold Linked; decide

def after (h : History) (es : List Event) : Cluster :=
  (Logic.run (step firstNodes h) init es).getD init

/-- In `growth` the new node is told the pipeline of the first term. -/
theorem no_secondGroup_of_sustained_growth :
    ((after growth [.receive 1, .receive 4, .receive 4]).node 4).pgRaftNode.map Raft.peers =
        [[3, 2, 1]] ∧
      ¬ SecondGroup (after growth [.receive 1, .receive 4])
        (after growth [.receive 1, .receive 4, .receive 4]) := by
  refine ⟨by decide, ?_⟩
  exact no_secondGroup_of_sustained firstNodes growth [.receive 1, .receive 4] (.receive 4)
    (by decide) rfl (by decide) rfl

/-- In `outage` the new node bootstraps a group while node 1 runs the one of the first term. -/
theorem secondGroup_after_outage :
    Logic.run (step firstNodes outage) init [.receive 1, .receive 4, .receive 4] =
        some (after outage [.receive 1, .receive 4, .receive 4]) ∧
      step firstNodes outage (after outage [.receive 1, .receive 4, .receive 4]) (.receive 4) =
        some (after outage [.receive 1, .receive 4, .receive 4, .receive 4]) ∧
      SecondGroup (after outage [.receive 1, .receive 4, .receive 4])
        (after outage [.receive 1, .receive 4, .receive 4, .receive 4]) :=
  ⟨rfl, rfl, 4, 1, by decide⟩

end Cluster

end Ecos.Alaya
