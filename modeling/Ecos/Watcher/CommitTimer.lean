import Ecos.Watcher

namespace Ecos.Watcher
open Moon Logic

namespace CommitTimer

inductive Timer where
  | unset
  | armed
  | expired
  deriving DecidableEq, Repr

inductive Callback where
  | fired
  /-- in the walk through the storage, with the number of updates at its start -/
  | ranging (start : ℕ)
  /-- before the lookup of the leader -/
  | surveyed (clusterNodes : List NodeInfo)
  deriving DecidableEq, Repr

structure State where
  /-- the updates in the order in which they were stored -/
  updates : List NodeInfo := []
  /-- the updates whose `nodeInfoChanged` has returned, by number -/
  returned : List ℕ := []
  timer : Timer := .unset
  callbacks : List Callback := []
  generated : List ClusterInfo := []
  deriving DecidableEq

inductive Action where
  | store (info : NodeInfo)
  | nodeInfoChanged (u : ℕ)
  /-- `nodeInfoChanged(nil)` on an event of the monitor -/
  | monitorEvent
  | expire
  | startRange (i : ℕ)
  /-- the value of each key is one that it had since the start of the walk: the one after this
  number of updates -/
  | endRange (i : ℕ) (seen : UInt64 → ℕ) (getNodeReport : UInt64 → Option NodeState)
  | lookup (i : ℕ) (now currentTerm : UInt64)

def latest (updates : List NodeInfo) (id : UInt64) : Option NodeInfo :=
  (updates.filter fun info => info.raftId = id).getLast?

def getAll (updates : List NodeInfo) (seen : UInt64 → ℕ) : List NodeInfo :=
  (updates.map NodeInfo.raftId).dedup.filterMap fun id => latest (updates.take (seen id)) id

namespace State

/-- `Stop` is true on an armed timer, which is then reset; otherwise there is a new timer. -/
def nodeInfoChanged (s : State) : State := { s with timer := .armed }

/-- The callback `i` goes on. -/
def resume (s : State) (i : ℕ) (c : Callback) : State :=
  { s with callbacks := s.callbacks.set i c }

variable (leader : UInt64) in
def step (s : State) : Action → Option State
  | .store info => some { s with updates := s.updates ++ [info] }
  | .nodeInfoChanged u =>
    if u < s.updates.length then some { s.nodeInfoChanged with returned := u :: s.returned }
    else none
  | .monitorEvent => some s.nodeInfoChanged
  | .expire =>
    if s.timer = .armed then
      some { s with timer := .expired, callbacks := s.callbacks ++ [.fired] }
    else none
  | .startRange i =>
    if s.callbacks[i]? = some .fired then some (s.resume i (.ranging s.updates.length)) else none
  | .endRange i seen getNodeReport =>
    match s.callbacks[i]? with
    | some (.ranging start) =>
      if ∀ info ∈ s.updates, start ≤ seen info.raftId then
        some (s.resume i (.surveyed (survey getNodeReport (getAll s.updates seen))))
      else none
    | _ => none
  | .lookup i now currentTerm =>
    match s.callbacks[i]? with
    | some (.surveyed clusterNodes) =>
      let s := { s with callbacks := s.callbacks.eraseIdx i }
      match latest s.updates leader with
      | none => some s
      | some leaderInfo =>
        some { s with
          generated := s.generated ++ [newClusterInfo clusterNodes leaderInfo now currentTerm] }
    | _ => none

/-- The nodes have the info of the update, or of a later one of the same node. -/
def Reflects (s : State) (nodes : List NodeInfo) (u : ℕ) : Prop :=
  ∃ v info info' state, u ≤ v ∧ s.updates[u]? = some info ∧ s.updates[v]? = some info' ∧
    info'.raftId = info.raftId ∧ { info' with state } ∈ nodes

def Sees (s : State) (u : ℕ) : Callback → Prop
  | .fired => True
  | .ranging start => u < start
  | .surveyed clusterNodes => s.Reflects clusterNodes u

/-- An update that is in no cluster info has the timer armed or a callback that will see it. -/
def Kept (s : State) : Prop :=
  ∀ u ∈ s.returned, (∃ info ∈ s.generated, s.Reflects info.nodesInfo u) ∨ s.timer = .armed ∨
    ∃ c ∈ s.callbacks, s.Sees u c

end State

theorem latest_concat (updates : List NodeInfo) (info : NodeInfo) (id : UInt64) :
    latest (updates ++ [info]) id = if info.raftId = id then some info else latest updates id := by
  unfold latest
  split_ifs with h
  · rw [List.filter_append, List.filter_cons_of_pos (by simpa using h), List.filter_nil,
      List.getLast?_concat]
  · rw [List.filter_append, List.filter_cons_of_neg (by simpa using h), List.filter_nil,
      List.append_nil]

/-- The value of a key comes from an update that is not older than any given one. -/
theorem exists_latest {updates : List NodeInfo} {u : ℕ} {info : NodeInfo}
    (hu : updates[u]? = some info) :
    ∃ v info', u ≤ v ∧ updates[v]? = some info' ∧ info'.raftId = info.raftId ∧
      latest updates info.raftId = some info' := by
  induction updates using List.reverseRecOn with
  | nil => cases hu
  | append_singleton updates last ih =>
    rw [latest_concat]
    by_cases hlast : last.raftId = info.raftId
    · refine ⟨updates.length, last, ?_, List.getElem?_concat_length, hlast, if_pos hlast⟩
      have hlt := (List.getElem?_eq_some_iff.mp hu).1
      rw [List.length_append, List.length_singleton] at hlt
      omega
    · rw [if_neg hlast]
      have hlt : u < updates.length := by
        by_contra hge
        obtain ⟨hlt, heq⟩ := List.getElem?_eq_some_iff.mp hu
        rw [List.length_append, List.length_singleton] at hlt
        rw [show u = updates.length by omega, List.getElem?_concat_length] at hu
        cases hu
        exact hlast rfl
      rw [List.getElem?_append_left hlt] at hu
      obtain ⟨v, info', hle, hv, hid, hlatest⟩ := ih hu
      refine ⟨v, info', hle, ?_, hid, hlatest⟩
      rw [List.getElem?_append_left (List.getElem?_eq_some_iff.mp hv).1]
      exact hv

namespace State

variable {leader : UInt64} {s s' : State} {u i : ℕ}

/-- A walk sees every update that was stored before its start. -/
theorem reflects_survey {start : ℕ} {seen : UInt64 → ℕ}
    (hseen : ∀ info ∈ s.updates, start ≤ seen info.raftId) (hu : u < start)
    (hlen : u < s.updates.length) (getNodeReport : UInt64 → Option NodeState) :
    s.Reflects (survey getNodeReport (getAll s.updates seen)) u := by
  have hget : s.updates[u]? = some s.updates[u] := List.getElem?_eq_getElem hlen
  have hmem := List.mem_of_getElem? hget
  have htake : (s.updates.take (seen s.updates[u].raftId))[u]? = some s.updates[u] := by
    rw [List.getElem?_take_of_lt (hu.trans_le (hseen _ hmem)), hget]
  obtain ⟨v, info', hle, hv, hid, hlatest⟩ := exists_latest htake
  have hall : info' ∈ getAll s.updates seen := by
    refine List.mem_filterMap.mpr ⟨s.updates[u].raftId, ?_, hlatest⟩
    exact List.mem_dedup.mpr (List.mem_map_of_mem hmem)
  refine ⟨v, _, info', (getNodeReport info'.raftId).getD .OFFLINE, hle, hget, ?_, hid, ?_⟩
  · have hlt := (List.getElem?_eq_some_iff.mp hv).1
    rw [List.length_take, lt_min_iff] at hlt
    rwa [List.getElem?_take_of_lt hlt.1] at hv
  · rw [survey, List.mem_insertionSort]
    exact List.mem_map_of_mem hall

theorem Reflects.store {nodes : List NodeInfo} (h : s.Reflects nodes u)
    (hs : s.updates <+: s'.updates) : s'.Reflects nodes u := by
  obtain ⟨v, info, info', state, hle, hu, hv, hid, hmem⟩ := h
  obtain ⟨later, hlater⟩ := hs
  have hget : ∀ {k : ℕ} {x : NodeInfo}, s.updates[k]? = some x → s'.updates[k]? = some x := by
    intro k x hk
    rw [← hlater, List.getElem?_append_left (List.getElem?_eq_some_iff.mp hk).1]
    exact hk
  exact ⟨v, info, info', state, hle, hget hu, hget hv, hid, hmem⟩

theorem Sees.store {c : Callback} (h : s.Sees u c) (hs : s.updates <+: s'.updates) :
    s'.Sees u c := by
  cases c with
  | fired => trivial
  | ranging start => exact h
  | surveyed nodes => exact Reflects.store h hs

/-- An update that is stored takes nothing away from the others. -/
theorem Kept.store (h : s.Kept) (info : NodeInfo) :
    Kept { s with updates := s.updates ++ [info] } := by
  have hprefix : s.updates <+: s.updates ++ [info] := List.prefix_append _ _
  intro u hu
  rcases h u hu with ⟨g, hg, hreflects⟩ | harmed | ⟨c, hc, hsee⟩
  · exact .inl ⟨g, hg, hreflects.store hprefix⟩
  · exact .inr (.inl harmed)
  · exact .inr (.inr ⟨c, hc, hsee.store hprefix⟩)

/-- A callback goes on, and it still sees what it would see. -/
theorem Kept.resume (h : s.Kept) {c c' : Callback} (hi : s.callbacks[i]? = some c)
    (hsees : ∀ u ∈ s.returned, s.Sees u c → s.Sees u c') : (s.resume i c').Kept := by
  intro u hu
  rcases h u hu with hgen | harmed | ⟨d, hd, hsee⟩
  · exact .inl hgen
  · exact .inr (.inl harmed)
  · refine .inr (.inr ?_)
    obtain ⟨j, hj⟩ := List.mem_iff_getElem?.mp hd
    by_cases hij : i = j
    · subst hij
      rw [hi] at hj
      cases hj
      have hlt := (List.getElem?_eq_some_iff.mp hi).1
      exact ⟨c', List.mem_set hlt c', hsees u hu hsee⟩
    · refine ⟨d, List.mem_iff_getElem?.mpr ⟨j, ?_⟩, hsee⟩
      rw [State.resume, List.getElem?_set_ne hij]
      exact hj

/-- The callback is done, and what it would see is in a cluster info. -/
theorem Kept.generate (h : s.Kept) {nodes : List NodeInfo}
    (hi : s.callbacks[i]? = some (.surveyed nodes)) {info : ClusterInfo}
    (hinfo : info.nodesInfo = nodes) :
    Kept { s with callbacks := s.callbacks.eraseIdx i, generated := s.generated ++ [info] } := by
  intro u hu
  rcases h u hu with ⟨g, hg, hreflects⟩ | harmed | ⟨d, hd, hsee⟩
  · exact .inl ⟨g, List.mem_append_left _ hg, hreflects⟩
  · exact .inr (.inl harmed)
  · obtain ⟨j, hj⟩ := List.mem_iff_getElem?.mp hd
    by_cases hij : j = i
    · subst hij
      rw [hi] at hj
      cases hj
      exact .inl ⟨info, List.mem_append_right _ (List.mem_singleton_self _), hinfo ▸ hsee⟩
    · refine .inr (.inr ⟨d, ?_, hsee⟩)
      exact List.mem_eraseIdx_iff_getElem?.mpr ⟨j, hij, hj⟩

structure Inv (s : State) : Prop where
  stored : ∀ u ∈ s.returned, u < s.updates.length
  kept : s.Kept

def LeaderStored (leader : UInt64) (s : State) : Action → Prop
  | .lookup _ _ _ => ∃ info ∈ s.updates, info.raftId = leader
  | _ => True

instance (leader : UInt64) (s : State) : DecidablePred (LeaderStored leader s)
  | .lookup _ _ _ => inferInstanceAs (Decidable (∃ info ∈ s.updates, info.raftId = leader))
  | .store _ | .nodeInfoChanged _ | .monitorEvent | .expire | .startRange _ | .endRange _ _ _ =>
    isTrue trivial

theorem inv_step {a : Action} (h : s.Inv) (hleader : LeaderStored leader s a)
    (hstep : s.step leader a = some s') : s'.Inv := by
  have hpost : s'.timer = .armed → s'.Kept := fun harmed u _ => .inr (.inl harmed)
  cases a with
  | store info =>
    cases hstep
    refine ⟨fun u hu => (h.stored u hu).trans_le ?_, h.kept.store info⟩
    exact (List.prefix_append _ _).length_le
  | nodeInfoChanged u =>
    simp only [step] at hstep
    split_ifs at hstep with hu
    cases hstep
    exact ⟨List.forall_mem_cons.mpr ⟨hu, h.stored⟩, hpost rfl⟩
  | monitorEvent =>
    cases hstep
    exact ⟨h.stored, hpost rfl⟩
  | expire =>
    simp only [step] at hstep
    split_ifs at hstep
    cases hstep
    -- the callback has read nothing yet, so that it will see every update
    refine ⟨h.stored, fun u _ => .inr (.inr ⟨.fired, ?_, trivial⟩)⟩
    exact List.mem_append_right _ (List.mem_singleton_self _)
  | startRange i =>
    simp only [step] at hstep
    split_ifs at hstep with hi
    cases hstep
    exact ⟨h.stored, h.kept.resume hi fun u hu _ => h.stored u hu⟩
  | endRange i seen getNodeReport =>
    simp only [step] at hstep
    split at hstep
    · rename_i start hi
      split_ifs at hstep with hseen
      cases hstep
      refine ⟨h.stored, h.kept.resume hi fun u hu hsee => ?_⟩
      exact reflects_survey hseen hsee (h.stored u hu) getNodeReport
    · cases hstep
  | lookup i now currentTerm =>
    simp only [step] at hstep
    split at hstep
    · rename_i nodes hi
      -- the lookup finds the leader, so that the callback does not give up
      obtain ⟨info, hinfo, hid⟩ := hleader
      obtain ⟨j, hj⟩ := List.mem_iff_getElem?.mp hinfo
      obtain ⟨-, info', -, -, -, hlatest⟩ := exists_latest hj
      rw [hid] at hlatest
      simp only [hlatest] at hstep
      cases hstep
      exact ⟨h.stored, h.kept.generate hi rfl⟩
    · cases hstep

end State

open State

/-- While the leader's own info is stored, no change is lost. -/
theorem kept_run (leader : UInt64) (acts : List Action)
    (hleader : Meets (step leader) (LeaderStored leader) {} acts) {s : State}
    (hrun : run (step leader) {} acts = some s) : s.Kept :=
  (run_invariant (fun _ _ _ h hl hstep => inv_step h hl hstep)
    ⟨fun _ hu => absurd hu List.not_mem_nil, fun _ hu => absurd hu List.not_mem_nil⟩ hleader
    hrun).kept

def after (acts : List Action) : State := (run (step 1) {} acts).getD {}

def infoOf (raftId : UInt64) : NodeInfo := ⟨raftId, [], [], 0, 0, .OFFLINE⟩

def commit (n : ℕ) : List Action :=
  [.expire, .startRange 0, .endRange 0 (fun _ => n) fun _ => none, .lookup 0 5 0]

def joinAfterLeader : List Action :=
  [.store (infoOf 1), .nodeInfoChanged 0, .store (infoOf 2), .nodeInfoChanged 1] ++ commit 2

theorem kept_joinAfterLeader :
    (after joinAfterLeader).returned = [1, 0] ∧
      (after joinAfterLeader).generated.map ClusterInfo.nodesInfo = [[infoOf 2, infoOf 1]] ∧
      (after joinAfterLeader).Kept :=
  ⟨by decide, by decide, kept_run 1 joinAfterLeader (by decide) rfl⟩

def joinBeforeLeader : List Action := [.store (infoOf 2), .nodeInfoChanged 0] ++ commit 1

/-- The callback gives up, nothing is generated, and no timer is armed. -/
theorem change_lost :
    run (step 1) {} joinBeforeLeader = some (after joinBeforeLeader) ∧
      (after joinBeforeLeader).returned = [0] ∧ (after joinBeforeLeader).generated = [] ∧
      (after joinBeforeLeader).timer = .expired ∧ (after joinBeforeLeader).callbacks = [] ∧
      ¬(after joinBeforeLeader).Kept := by
  have hgenerated : (after joinBeforeLeader).generated = [] := by decide
  have hcallbacks : (after joinBeforeLeader).callbacks = [] := by decide
  refine ⟨rfl, rfl, hgenerated, by decide, hcallbacks, fun h => ?_⟩
  rcases h 0 (by decide) with ⟨g, hg, -⟩ | harmed | ⟨c, hc, -⟩
  · rw [hgenerated] at hg
    cases hg
  · exact absurd harmed (by decide)
  · rw [hcallbacks] at hc
    cases hc

end CommitTimer

end Ecos.Watcher
