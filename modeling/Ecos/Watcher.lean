import Ecos.Moon.InfoStorage
import Ecos.Logic.Machine

namespace Ecos.Watcher
open Moon Logic

/-- What `genNewClusterInfo` reads before the current term. -/
structure Readings where
  /-- `GetAll` of the node info storage -/
  nodeInfos : Option (List NodeInfo)
  /-- the states that the monitor has reports of -/
  getNodeReport : UInt64 → Option NodeState
  leaderID : UInt64
  /-- `time.Now().UnixNano()` -/
  now : UInt64

/-- The loop of `genNewClusterInfo` over the node infos, and the sort after it. A node the monitor
has no report of is offline. -/
def survey (getNodeReport : UInt64 → Option NodeState) (nodeInfos : List NodeInfo) :
    List NodeInfo :=
  let clusterNodes := nodeInfos.map fun info =>
    { info with state := (getNodeReport info.raftId).getD .OFFLINE }
  clusterNodes.insertionSort fun a b => b.raftId ≤ a.raftId

def newClusterInfo (clusterNodes : List NodeInfo) (leaderInfo : NodeInfo)
    (now currentTerm : UInt64) : ClusterInfo where
  term := now
  leaderInfo := some leaderInfo
  nodesInfo := clusterNodes
  metaPgNum := 10
  metaPgSize := 3
  blockPgNum := 100
  blockPgSize := 3
  lastTerm := currentTerm

def genNewClusterInfo (r : Readings) (currentTerm : UInt64) : Option ClusterInfo := do
  let nodeInfos ← r.nodeInfos
  let clusterNodes := survey r.getNodeReport nodeInfos
  let leaderInfo ← nodeInfos.find? fun info => info.raftId = r.leaderID
  return newClusterInfo clusterNodes leaderInfo r.now currentTerm

structure Node where
  isLeader : Bool := false
  /-- the commit timer is running -/
  timer : Bool := false
  currentClusterInfo : ClusterInfo := .zero
  /-- the cluster infos that `clusterInfoChanged` was called with -/
  applied : List ClusterInfo := []

namespace Node

def getCurrentTerm (w : Node) : UInt64 := w.currentClusterInfo.term

def nodeInfoChanged (w : Node) : Node := if w.isLeader then { w with timer := true } else w

def clusterInfoChanged (w : Node) (info : ClusterInfo) : Node :=
  { w with currentClusterInfo := info, applied := w.applied ++ [info] }

end Node

structure Cluster where
  node : UInt64 → Node := fun _ => {}
  /-- callbacks that have read everything but the current term -/
  stamped : List (UInt64 × Readings) := []
  /-- cluster infos that were generated and not yet proposed -/
  generated : List (UInt64 × ClusterInfo) := []
  /-- proposals that are neither committed nor lost -/
  proposed : List ClusterInfo := []
  /-- the cluster infos in the committed log -/
  log : List ClusterInfo := []

inductive Action where
  | setLeader (n : UInt64) (isLeader : Bool)
  | nodeInfoChanged (n : UInt64)
  /-- the timer fires, and its callback runs up to the time stamp -/
  | fire (n : UInt64) (r : Readings)
  /-- a callback reads the current term and has its cluster info -/
  | generate (i : ℕ)
  | propose (i : ℕ)
  | commit (i : ℕ)
  | lose (i : ℕ)
  | apply (n : UInt64)

namespace Cluster

def setNode (c : Cluster) (n : UInt64) (w : Node) : Cluster :=
  { c with node := Function.update c.node n w }

def step (c : Cluster) : Action → Option Cluster
  | .setLeader n isLeader => some (c.setNode n { c.node n with isLeader })
  | .nodeInfoChanged n => some (c.setNode n (c.node n).nodeInfoChanged)
  | .fire n r =>
    if (c.node n).timer then
      some { c.setNode n { c.node n with timer := false } with stamped := c.stamped ++ [(n, r)] }
    else none
  | .generate i => do
    let x ← c.stamped[i]?
    let infos := (genNewClusterInfo x.2 (c.node x.1).getCurrentTerm).toList
    return { c with
      stamped := c.stamped.eraseIdx i
      generated := c.generated ++ infos.map fun info => (x.1, info) }
  | .propose i => do
    let x ← c.generated[i]?
    let c := { c with generated := c.generated.eraseIdx i }
    -- `proposeClusterInfo` returns at once where the node is no longer the leader
    return if (c.node x.1).isLeader then { c with proposed := c.proposed ++ [x.2] } else c
  | .commit i => do
    let info ← c.proposed[i]?
    return { c with proposed := c.proposed.eraseIdx i, log := c.log ++ [info] }
  | .lose i => some { c with proposed := c.proposed.eraseIdx i }
  | .apply n => do
    let info ← c.log[(c.node n).applied.length]?
    return c.setNode n ((c.node n).clusterInfoChanged info)

def latest (infos : List ClusterInfo) : ClusterInfo := infos.getLast?.getD .zero

/-- On every node the terms of the applied infos increase, each info names the term that was
current before, and the current term is that of the last one. -/
def Chained (c : Cluster) : Prop :=
  ∀ n, Linked (c.node n).applied ∧ (c.node n).getCurrentTerm = (latest (c.node n).applied).term

/-- An info is generated while no other one is on its way, by a node that has applied the whole
log and whose clock is ahead of its current term. -/
def Settled (c : Cluster) : Action → Prop
  | .generate i => ∀ x ∈ c.stamped[i]?, c.generated = [] ∧ c.proposed = [] ∧
      (c.node x.1).applied.length = c.log.length ∧ (c.node x.1).getCurrentTerm < x.2.now
  | _ => True

instance (c : Cluster) (a : Action) : Decidable (c.Settled a) := by
  unfold Settled
  split <;> infer_instance

theorem linked_concat {infos : List ClusterInfo} {info : ClusterInfo} (h : Linked infos)
    (hs : (latest infos).Succeeds info) : Linked (infos ++ [info]) := by
  unfold Linked at h ⊢
  rw [← List.cons_append, List.isChain_append]
  refine ⟨h, List.isChain_singleton _, fun a ha b hb => ?_⟩
  rw [List.getLast?_cons, Option.mem_some_iff] at ha
  rw [List.head?_singleton, Option.mem_some_iff] at hb
  rw [← ha, ← hb]
  exact hs

theorem linked_initial {infos log : List ClusterInfo} (hp : infos <+: log) (h : Linked log) :
    Linked infos := by
  have hc : ClusterInfo.zero :: infos <+: ClusterInfo.zero :: log :=
    List.cons_prefix_cons.mpr ⟨rfl, hp⟩
  exact List.IsChain.prefix h hc

def underway (c : Cluster) : List ClusterInfo := c.generated.map Prod.snd ++ c.proposed

structure Sound (c : Cluster) : Prop where
  linked : Linked c.log
  applied : ∀ n, (c.node n).applied <+: c.log
  current : ∀ n, (c.node n).currentClusterInfo = latest (c.node n).applied
  single : c.underway.length ≤ 1
  next : ∀ info ∈ c.underway, (latest c.log).Succeeds info

theorem sound_init : Sound {} where
  linked := List.isChain_singleton _
  applied _ := List.nil_prefix
  current _ := rfl
  single := Nat.zero_le 1
  next := by simp [underway]

theorem Sound.setNode {c : Cluster} (hc : c.Sound) (n : UInt64) {w : Node}
    (happlied : w.applied <+: c.log) (hcurrent : w.currentClusterInfo = latest w.applied) :
    (c.setNode n w).Sound := by
  refine ⟨hc.linked, fun m => ?_, fun m => ?_, hc.single, hc.next⟩
  · by_cases hm : m = n
    · subst hm
      simpa [Cluster.setNode] using happlied
    · simpa [Cluster.setNode, hm] using hc.applied m
  · by_cases hm : m = n
    · subst hm
      simpa [Cluster.setNode] using hcurrent
    · simpa [Cluster.setNode, hm] using hc.current m

/-- Nothing new gets under way. -/
theorem Sound.forward {c c' : Cluster} (hc : c.Sound) (hnode : c'.node = c.node)
    (hlog : c'.log = c.log) (hlen : c'.underway.length ≤ c.underway.length)
    (hmem : ∀ info ∈ c'.underway, info ∈ c.underway) : c'.Sound where
  linked := hlog ▸ hc.linked
  applied n := by rw [hnode, hlog]; exact hc.applied n
  current n := by rw [hnode]; exact hc.current n
  single := hlen.trans hc.single
  next info hi := by rw [hlog]; exact hc.next info (hmem info hi)

theorem genNewClusterInfo_eq {r : Readings} {term : UInt64} {info : ClusterInfo}
    (h : genNewClusterInfo r term = some info) : info.term = r.now ∧ info.lastTerm = term := by
  simp only [genNewClusterInfo, bind, Option.bind_eq_some_iff] at h
  obtain ⟨nodes, -, leader, -, hinfo⟩ := h
  cases hinfo
  exact ⟨rfl, rfl⟩

theorem Sound.generate {c c' : Cluster} (hc : c.Sound) {i : ℕ} (hg : c.Settled (.generate i))
    (h : c.step (.generate i) = some c') : c'.Sound := by
  simp only [step, bind, Option.bind_eq_some_iff] at h
  obtain ⟨x, hx, hc'⟩ := h
  cases hc'
  obtain ⟨hgen, hprop, happlied, hclock⟩ := hg x hx
  cases hinfo : genNewClusterInfo x.2 (c.node x.1).getCurrentTerm with
  | none =>
    exact hc.forward rfl rfl (by simp [underway]) (by simp [underway])
  | some info =>
    obtain ⟨hterm, hlast⟩ := genNewClusterInfo_eq hinfo
    have hall : (c.node x.1).applied = c.log := (hc.applied x.1).eq_of_length happlied
    have hcur : (c.node x.1).getCurrentTerm = (latest c.log).term := by
      rw [Node.getCurrentTerm, hc.current, hall]
    refine ⟨hc.linked, hc.applied, hc.current, ?_, fun info' hi => ?_⟩
    · simp [underway, hgen, hprop]
    · have : info' = info := by simpa [underway, hgen, hprop] using hi
      rw [this, ClusterInfo.Succeeds, hterm, hlast, hcur]
      exact ⟨rfl, hcur ▸ hclock⟩

theorem Sound.propose {c c' : Cluster} (hc : c.Sound) {i : ℕ}
    (h : c.step (.propose i) = some c') : c'.Sound := by
  simp only [step, bind, Option.bind_eq_some_iff] at h
  obtain ⟨x, hx, hc'⟩ := h
  have hi : i < c.generated.length := (List.getElem?_eq_some_iff.mp hx).1
  have hmem : ∀ y ∈ c.generated.eraseIdx i, y ∈ c.generated := fun _ => List.mem_of_mem_eraseIdx
  rw [← Option.some.inj hc']
  split_ifs
  · refine hc.forward rfl rfl ?_ fun info hinfo => ?_
    · simp only [underway, List.length_append, List.length_map, List.length_eraseIdx, if_pos hi,
        List.length_singleton]
      omega
    · simp only [underway, List.mem_append, List.mem_map, List.mem_singleton] at hinfo ⊢
      rcases hinfo with ⟨y, hy, rfl⟩ | hinfo | rfl
      · exact Or.inl ⟨y, hmem y hy, rfl⟩
      · exact Or.inr hinfo
      · exact Or.inl ⟨x, List.mem_of_getElem? hx, rfl⟩
  · refine hc.forward rfl rfl ?_ fun info hinfo => ?_
    · simp only [underway, List.length_append, List.length_map]
      have := List.length_eraseIdx_le c.generated i
      omega
    · simp only [underway, List.mem_append, List.mem_map] at hinfo ⊢
      rcases hinfo with ⟨y, hy, rfl⟩ | hinfo
      · exact Or.inl ⟨y, hmem y hy, rfl⟩
      · exact Or.inr hinfo

theorem Sound.commit {c c' : Cluster} (hc : c.Sound) {i : ℕ}
    (h : c.step (.commit i) = some c') : c'.Sound := by
  simp only [step, bind, Option.bind_eq_some_iff] at h
  obtain ⟨info, hinfo, hc'⟩ := h
  cases hc'
  have hi : i < c.proposed.length := (List.getElem?_eq_some_iff.mp hinfo).1
  have hsingle := hc.single
  have hnext := hc.next info (List.mem_append_right _ (List.mem_of_getElem? hinfo))
  -- the committed info was the only one under way
  have hnone : c.generated.map Prod.snd ++ c.proposed.eraseIdx i = [] := by
    rw [← List.length_eq_zero_iff]
    simp only [underway, List.length_append, List.length_map] at hsingle
    simp only [List.length_append, List.length_map, List.length_eraseIdx, if_pos hi]
    omega
  refine ⟨linked_concat hc.linked hnext, fun n => ?_, hc.current, ?_, ?_⟩
  · exact (hc.applied n).trans (List.prefix_append _ _)
  · simp only [underway, hnone, List.length_nil, Nat.zero_le]
  · simp only [underway, hnone, List.not_mem_nil, false_imp_iff, implies_true]

theorem Sound.apply {c c' : Cluster} (hc : c.Sound) {n : UInt64}
    (h : c.step (.apply n) = some c') : c'.Sound := by
  simp only [step, bind, Option.bind_eq_some_iff] at h
  obtain ⟨info, hinfo, hc'⟩ := h
  cases hc'
  obtain ⟨t, ht⟩ := hc.applied n
  rw [← ht, List.getElem?_append_right (Nat.le_refl _), Nat.sub_self,
    ← List.head?_eq_getElem?] at hinfo
  obtain ⟨t', rfl⟩ := List.head?_eq_some_iff.mp hinfo
  refine hc.setNode n ⟨t', ?_⟩ ?_
  · rw [← ht, Node.clusterInfoChanged, List.append_assoc]
    rfl
  · simp [Node.clusterInfoChanged, latest]

theorem sound_step {c c' : Cluster} {a : Action} (hc : c.Sound) (hg : c.Settled a)
    (h : c.step a = some c') : c'.Sound := by
  cases a with
  | setLeader n isLeader =>
    cases h
    exact hc.setNode n (hc.applied n) (hc.current n)
  | nodeInfoChanged n =>
    cases h
    unfold Node.nodeInfoChanged
    split_ifs
    · exact hc.setNode n (hc.applied n) (hc.current n)
    · exact hc.setNode n (hc.applied n) (hc.current n)
  | fire n r =>
    simp only [step] at h
    split_ifs at h
    cases h
    have hset := @Sound.setNode c hc n { c.node n with timer := false } (hc.applied n) (hc.current n)
    exact ⟨hset.linked, hset.applied, hset.current, hset.single, hset.next⟩
  | generate i => exact hc.generate hg h
  | propose i => exact hc.propose h
  | commit i => exact hc.commit h
  | lose i =>
    cases h
    refine hc.forward rfl rfl ?_ fun info hinfo => ?_
    · simp only [underway, List.length_append]
      have := List.length_eraseIdx_le c.proposed i
      omega
    · rcases List.mem_append.mp hinfo with hinfo | hinfo
      · exact List.mem_append_left _ hinfo
      · exact List.mem_append_right _ (List.mem_of_mem_eraseIdx hinfo)
  | apply n => exact hc.apply h

/-- In every run in which each cluster info is generated as `Settled` says, the infos applied on
any node form a chain. -/
theorem chained_of_settled (actions : List Action) {c : Cluster} (hg : Meets step Settled {} actions)
    (hr : Logic.run step {} actions = some c) : c.Chained := by
  have hsound := run_invariant (fun _ _ _ hc hg h => sound_step hc hg h) sound_init hg hr
  intro n
  refine ⟨linked_initial (hsound.applied n) hsound.linked, ?_⟩
  rw [Node.getCurrentTerm, hsound.current]

def readings (now : UInt64) : Readings where
  nodeInfos := some [⟨1, [], [], 0, 10, .ONLINE⟩]
  getNodeReport _ := some .ONLINE
  leaderID := 1
  now := now

def round (now : UInt64) : List Action :=
  [.nodeInfoChanged 1, .fire 1 (readings now), .generate 0, .propose 0, .commit 0, .apply 1]

def after (actions : List Action) : Cluster := (Logic.run step {} actions).getD {}

theorem chained_of_settled_rounds :
    ((after (.setLeader 1 true :: round 1 ++ round 2)).node 1).applied.map ClusterInfo.term =
        [1, 2] ∧
      (after (.setLeader 1 true :: round 1 ++ round 2)).Chained := by
  refine ⟨by decide, ?_⟩
  exact chained_of_settled (.setLeader 1 true :: round 1 ++ round 2) (by decide) rfl

def overlap : List Action :=
  [.setLeader 1 true, .nodeInfoChanged 1, .fire 1 (readings 1), .nodeInfoChanged 1,
    .fire 1 (readings 2), .generate 0, .generate 0, .propose 1, .propose 0, .commit 0, .commit 0,
    .apply 1, .apply 1]

/-- The term goes back, and both infos name the zero term. -/
theorem overlap_not_chained :
    Logic.run step {} overlap = some (after overlap) ∧
      ((after overlap).node 1).applied.map ClusterInfo.term = [2, 1] ∧
      ((after overlap).node 1).applied.map ClusterInfo.lastTerm = [0, 0] ∧
      ¬ (after overlap).Chained := by
  refine ⟨rfl, by decide, by decide, fun h => ?_⟩
  have hlinked := (h 1).1
  unfold Linked at hlinked
  revert hlinked
  decide

end Cluster

end Ecos.Watcher
