import Ecos.ByteMap
import Ecos.Logic.Machine
import Ecos.Moon.InfoStorage

namespace Ecos.Cloud
open Go Logic Std Moon

structure RegisterResult where
  raftId : UInt64
  hasLeader : Bool
  clusterInfo : ClusterInfo
  deriving DecidableEq, Repr

structure Sun where
  leaderInfo : Option NodeInfo := none
  clusterInfo : ClusterInfo := .zero
  lastRaftID : UInt64 := 0
  /-- by uuid -/
  cachedInfo : ByteMap NodeInfo := ∅

namespace Sun

def setLeader (s : Sun) (nodeInfo : NodeInfo) : Sun :=
  { s with
    leaderInfo := some nodeInfo
    clusterInfo := { s.clusterInfo with leaderInfo := some nodeInfo } }

/-- `MoonRegister`; `none` where the log line at its end dereferences a nil `LeaderInfo`. -/
def moonRegister (s : Sun) (nodeInfo : NodeInfo) : Option (Sun × RegisterResult) :=
  let hasLeader := s.leaderInfo.isSome
  let s := if hasLeader then s else s.setLeader nodeInfo
  match s.cachedInfo[nodeInfo.uuid]? with
  | some info => some (s, ⟨info.raftId, hasLeader, s.clusterInfo⟩)
  | none =>
    let raftID := s.lastRaftID + 1
    let nodeInfo := { nodeInfo with raftId := raftID }
    -- a new leader is the same object, so its number is set with it
    let s := if hasLeader then s else s.setLeader nodeInfo
    let s := { s with
      lastRaftID := raftID
      cachedInfo := s.cachedInfo.insert nodeInfo.uuid nodeInfo }
    s.clusterInfo.leaderInfo.map fun _ => (s, ⟨raftID, hasLeader, s.clusterInfo⟩)

def reportClusterInfo (s : Sun) (clusterInfo : ClusterInfo) : Sun :=
  { s with clusterInfo := clusterInfo }

end Sun

inductive Call where
  | moonRegister (nodeInfo : NodeInfo)
  | reportClusterInfo (clusterInfo : ClusterInfo)
  deriving DecidableEq, Repr

def uuids (calls : List Call) : List Bytes :=
  calls.filterMap fun
    | .moonRegister nodeInfo => some nodeInfo.uuid
    | .reportClusterInfo _ => none

structure Served where
  sun : Sun := {}
  answers : List (Bytes × RegisterResult) := []

def step (s : Served) : Call → Option Served
  | .moonRegister nodeInfo => do
    let (sun, result) ← s.sun.moonRegister nodeInfo
    return ⟨sun, s.answers ++ [(nodeInfo.uuid, result)]⟩
  | .reportClusterInfo clusterInfo => some { s with sun := s.sun.reportClusterInfo clusterInfo }

def Led (s : Served) : Call → Prop
  | .reportClusterInfo clusterInfo => s.sun.leaderInfo = none ∨ clusterInfo.leaderInfo ≠ none
  | .moonRegister _ => True

instance (s : Served) : ∀ call, Decidable (Led s call)
  | .reportClusterInfo _ => instDecidableOr
  | .moonRegister _ => isTrue trivial

structure Identified (s : Served) : Prop where
  same_iff : ∀ x ∈ s.answers, ∀ y ∈ s.answers, x.2.raftId = y.2.raftId ↔ x.1 = y.1
  range : ∀ x ∈ s.answers, 1 ≤ x.2.raftId ∧ x.2.raftId ≤ s.sun.lastRaftID
  first : ∀ i x, s.answers[i]? = some x → (x.2.hasLeader = false ↔ i = 0)

/-- The cache knows all answered nodes under different numbers, which the counter bounds. -/
structure Sound (s : Served) : Prop where
  answered : ∀ x ∈ s.answers, (s.sun.cachedInfo[x.1]?).map NodeInfo.raftId = some x.2.raftId
  range : ∀ (u : Bytes) (info : NodeInfo), s.sun.cachedInfo[u]? = some info →
    1 ≤ info.raftId ∧ info.raftId ≤ s.sun.lastRaftID
  injective : ∀ (u v : Bytes) (info info' : NodeInfo), s.sun.cachedInfo[u]? = some info →
    s.sun.cachedInfo[v]? = some info' → info.raftId = info'.raftId → u = v
  count : s.sun.lastRaftID.toNat ≤ s.answers.length
  leader : s.sun.leaderInfo = none ↔ s.answers = []
  known : s.sun.leaderInfo ≠ none → s.sun.clusterInfo.leaderInfo ≠ none
  first : ∀ i x, s.answers[i]? = some x → (x.2.hasLeader = false ↔ i = 0)

theorem Sound.identified {s : Served} (h : Sound s) : Identified s := by
  have hcached : ∀ x ∈ s.answers, ∃ info, s.sun.cachedInfo[x.1]? = some info ∧
      info.raftId = x.2.raftId := fun x hx => Option.map_eq_some_iff.mp (h.answered x hx)
  refine ⟨fun x hx y hy => ?_, fun x hx => ?_, h.first⟩
  · obtain ⟨info, hinfo, hid⟩ := hcached x hx
    obtain ⟨info', hinfo', hid'⟩ := hcached y hy
    constructor
    · intro heq
      exact h.injective _ _ _ _ hinfo hinfo' (by rw [hid, hid', heq])
    · intro heq
      rw [← heq, hinfo] at hinfo'
      rw [← hid, ← hid', Option.some.inj hinfo']
  · obtain ⟨info, hinfo, hid⟩ := hcached x hx
    rw [← hid]
    exact h.range _ _ hinfo

/-- A known node is answered from the cache, and a new one gets the next number. -/
theorem moonRegister_eq {s : Served} (h : Sound s) (nodeInfo : NodeInfo) :
    ∃ sun result, s.sun.moonRegister nodeInfo = some (sun, result) ∧
      result.hasLeader = s.sun.leaderInfo.isSome ∧ sun.leaderInfo ≠ none ∧
      sun.clusterInfo.leaderInfo ≠ none ∧
      ((∃ info, s.sun.cachedInfo[nodeInfo.uuid]? = some info ∧ result.raftId = info.raftId ∧
          sun.cachedInfo = s.sun.cachedInfo ∧ sun.lastRaftID = s.sun.lastRaftID) ∨
        (s.sun.cachedInfo[nodeInfo.uuid]? = none ∧ result.raftId = s.sun.lastRaftID + 1 ∧
          sun.cachedInfo = s.sun.cachedInfo.insert nodeInfo.uuid
            { nodeInfo with raftId := s.sun.lastRaftID + 1 } ∧
          sun.lastRaftID = s.sun.lastRaftID + 1)) := by
  unfold Sun.moonRegister
  cases hl : s.sun.leaderInfo with
  | none =>
    cases hc : s.sun.cachedInfo[nodeInfo.uuid]? with
    | none =>
      simp only [Option.isSome_none, Bool.false_eq_true, if_false, Sun.setLeader, hc,
        Option.map_some]
      exact ⟨_, _, rfl, rfl, by simp, by simp, .inr ⟨trivial, rfl, rfl, rfl⟩⟩
    | some info =>
      simp only [Option.isSome_none, Bool.false_eq_true, if_false, Sun.setLeader, hc]
      exact ⟨_, _, rfl, rfl, by simp, by simp, .inl ⟨info, rfl, rfl, rfl, rfl⟩⟩
  | some leader =>
    have hne : s.sun.leaderInfo ≠ none := by simp [hl]
    cases hc : s.sun.cachedInfo[nodeInfo.uuid]? with
    | none =>
      obtain ⟨known, hknown⟩ := Option.ne_none_iff_exists'.mp (h.known hne)
      simp only [Option.isSome_some, if_true, hc, hknown, Option.map_some]
      exact ⟨_, _, rfl, rfl, hne, by simp [hknown], .inr ⟨trivial, rfl, rfl, rfl⟩⟩
    | some info =>
      simp only [Option.isSome_some, if_true, hc]
      exact ⟨_, _, rfl, rfl, hne, h.known hne, .inl ⟨info, rfl, rfl, rfl, rfl⟩⟩

theorem toNat_succ {n : UInt64} {k : ℕ} (hn : n.toNat ≤ k) (hk : k + 1 < 2 ^ 64) :
    (n + 1).toNat = n.toNat + 1 := by
  rw [UInt64.toNat_add, UInt64.toNat_one, Nat.mod_eq_of_lt (by omega)]

/-- The first answer is the only one to a node without a leader. -/
theorem first_append {s : Served} (h : Sound s) {u : Bytes} {result : RegisterResult}
    (hres : result.hasLeader = s.sun.leaderInfo.isSome) :
    ∀ i x, (s.answers ++ [(u, result)])[i]? = some x → (x.2.hasLeader = false ↔ i = 0) := by
  intro i x hx
  rw [List.getElem?_append] at hx
  split_ifs at hx with hi
  · exact h.first i x hx
  · obtain ⟨hlen, rfl⟩ : i = s.answers.length ∧ (u, result) = x := by
      rw [List.getElem?_singleton] at hx
      split_ifs at hx with h0
      exact ⟨by omega, Option.some.inj hx⟩
    rw [hres, Option.isSome_eq_false_iff, Option.isNone_iff_eq_none, h.leader, hlen,
      List.length_eq_zero_iff]

theorem Sound.moonRegister {s : Served} (h : Sound s) (hn : s.answers.length + 1 < 2 ^ 64)
    (nodeInfo : NodeInfo) :
    ∃ s', step s (.moonRegister nodeInfo) = some s' ∧ Sound s' ∧
      s'.answers.map Prod.fst = s.answers.map Prod.fst ++ [nodeInfo.uuid] := by
  obtain ⟨sun, result, heq, hres, hleader, hknown, hcases⟩ := moonRegister_eq h nodeInfo
  refine ⟨⟨sun, s.answers ++ [(nodeInfo.uuid, result)]⟩, ?_, ?_, by simp⟩
  · simp [step, heq]
  have hfirst := first_append h (u := nodeInfo.uuid) hres
  have hled : sun.leaderInfo = none ↔ s.answers ++ [(nodeInfo.uuid, result)] = [] := by
    simp [hleader]
  rcases hcases with ⟨info, hinfo, hid, hcache, hlast⟩ | ⟨hnew, hid, hcache, hlast⟩
  · refine ⟨fun x hx => ?_, ?_, ?_, ?_, hled, fun _ => hknown, hfirst⟩
    · rw [hcache]
      rcases List.mem_append.mp hx with hx | hx
      · exact h.answered x hx
      · rw [List.mem_singleton.mp hx, hinfo, Option.map_some, hid]
    · rw [hcache, hlast]
      exact h.range
    · rw [hcache]
      exact h.injective
    · rw [hlast, List.length_append]
      exact h.count.trans (Nat.le_add_right _ _)
  · -- the new number is beyond all those in the cache
    have hsucc := toNat_succ h.count hn
    have hlook : ∀ (u : Bytes) (info : NodeInfo), sun.cachedInfo[u]? = some info →
        (u = nodeInfo.uuid ∧ info.raftId = s.sun.lastRaftID + 1) ∨
          (u ≠ nodeInfo.uuid ∧ s.sun.cachedInfo[u]? = some info) := by
      intro u info hu
      rw [hcache, ExtTreeMap.getElem?_insert] at hu
      simp only [LawfulEqCmp.compare_eq_iff_eq] at hu
      split_ifs at hu with heq
      · exact .inl ⟨heq.symm, by rw [← Option.some.inj hu]⟩
      · exact .inr ⟨Ne.symm heq, hu⟩
    have hbelow : ∀ (u : Bytes) (info : NodeInfo), s.sun.cachedInfo[u]? = some info →
        info.raftId ≠ s.sun.lastRaftID + 1 := by
      intro u info hu heq
      have hle := UInt64.le_iff_toNat_le.mp (h.range u info hu).2
      rw [heq, hsucc] at hle
      omega
    refine ⟨fun x hx => ?_, fun u info hu => ?_, fun u v info info' hu hv heq => ?_, ?_, hled,
      fun _ => hknown, hfirst⟩
    · rw [hcache, ExtTreeMap.getElem?_insert]
      simp only [LawfulEqCmp.compare_eq_iff_eq]
      rcases List.mem_append.mp hx with hx | hx
      · have hold := h.answered x hx
        have hne : nodeInfo.uuid ≠ x.1 := by
          intro heq
          rw [← heq, hnew] at hold
          cases hold
        rw [if_neg hne]
        exact hold
      · rw [List.mem_singleton.mp hx, if_pos rfl, Option.map_some, hid]
    · rw [hlast, UInt64.le_iff_toNat_le, UInt64.le_iff_toNat_le, hsucc, UInt64.toNat_one]
      rcases hlook u info hu with ⟨-, hinfo⟩ | ⟨-, hu⟩
      · rw [hinfo, hsucc]
        omega
      · obtain ⟨h1, h2⟩ := h.range u info hu
        rw [UInt64.le_iff_toNat_le, UInt64.toNat_one] at h1
        rw [UInt64.le_iff_toNat_le] at h2
        omega
    · rcases hlook u info hu with ⟨rfl, hinfo⟩ | ⟨-, hu⟩ <;>
        rcases hlook v info' hv with ⟨rfl, hinfo'⟩ | ⟨-, hv⟩
      · rfl
      · exact absurd (heq.symm.trans hinfo) (hbelow v info' hv)
      · exact absurd (heq.trans hinfo') (hbelow u info hu)
      · exact h.injective u v info info' hu hv heq
    · rw [hlast, hsucc, List.length_append]
      exact Nat.succ_le_succ h.count

theorem Sound.reportClusterInfo {s : Served} (h : Sound s) {clusterInfo : ClusterInfo}
    (hg : Led s (.reportClusterInfo clusterInfo)) :
    Sound { s with sun := s.sun.reportClusterInfo clusterInfo } :=
  ⟨h.answered, h.range, h.injective, h.count, h.leader, fun hne => hg.resolve_left hne, h.first⟩

theorem sound_new : Sound {} := by
  refine ⟨fun _ hx => absurd hx List.not_mem_nil, fun u info hu => ?_, fun u v info info' hu => ?_,
    Nat.le_refl _, iff_of_true rfl rfl, fun h => absurd rfl h, fun i x hx => by simp at hx⟩
  all_goals
    rw [show (({} : Served).sun.cachedInfo)[u]? = none from ExtTreeMap.getElem?_empty] at hu
    cases hu

theorem sound_run {s : Served} (h : Sound s) {calls : List Call} (hg : Meets step Led s calls)
    (hn : s.answers.length + (uuids calls).length < 2 ^ 64) :
    ∃ s', run step s calls = some s' ∧ Sound s' ∧
      s'.answers.map Prod.fst = s.answers.map Prod.fst ++ uuids calls := by
  induction calls generalizing s with
  | nil => exact ⟨s, rfl, h, (List.append_nil _).symm⟩
  | cons call calls ih =>
    cases call with
    | moonRegister nodeInfo =>
      rw [show uuids (.moonRegister nodeInfo :: calls) = nodeInfo.uuid :: uuids calls from rfl]
        at hn ⊢
      rw [List.length_cons] at hn
      obtain ⟨t, ht, hst, hmap⟩ := h.moonRegister (by omega) nodeInfo
      have hlen := congrArg List.length hmap
      simp only [List.length_map, List.length_append, List.length_singleton] at hlen
      obtain ⟨s', hr, hs', hall⟩ := ih hst (hg.2 t ht) (by omega)
      refine ⟨s', by rw [run_cons, ht, Option.bind_some, hr], hs', ?_⟩
      rw [hall, hmap, List.append_assoc, List.singleton_append]
    | reportClusterInfo clusterInfo =>
      obtain ⟨s', hr, hs', hall⟩ := ih (h.reportClusterInfo hg.1) (hg.2 _ rfl) hn
      exact ⟨s', by rw [run_cons]; exact hr, hs', hall⟩

/-- While the reported cluster infos name a leader, every registration is answered and the answers
identify the nodes. -/
theorem identified_of_led (calls : List Call) (hg : Meets step Led {} calls)
    (hn : (uuids calls).length < 2 ^ 64) :
    ∃ s, run step {} calls = some s ∧ s.answers.map Prod.fst = uuids calls ∧ Identified s := by
  obtain ⟨s, hr, hs, hall⟩ := sound_run sound_new hg (by simpa using hn)
  exact ⟨s, hr, hall, hs.identified⟩

def nodeWith (uuid : UInt8) : NodeInfo := ⟨0, [uuid], [], 0, 0, .ONLINE⟩

def registerTwice : List Call :=
  [.moonRegister (nodeWith 7), .moonRegister (nodeWith 8),
    .reportClusterInfo { ClusterInfo.zero with leaderInfo := some (nodeWith 7) },
    .moonRegister (nodeWith 8), .moonRegister (nodeWith 7)]

theorem identified_registerTwice :
    ((run step {} registerTwice).map fun s => s.answers.map fun x => (x.2.raftId, x.2.hasLeader)) =
        some [(1, false), (2, true), (2, true), (1, true)] ∧
      ∃ s, run step {} registerTwice = some s ∧ s.answers.map Prod.fst = uuids registerTwice ∧
        Identified s :=
  ⟨by decide +kernel, identified_of_led registerTwice (by decide +kernel) (by decide)⟩

/-- After a report without a leader the registration of a new node panics. -/
theorem leaderless_report_panics :
    (run step {} [.moonRegister (nodeWith 7), .reportClusterInfo .zero]).isSome ∧
      run step {} [.moonRegister (nodeWith 7), .reportClusterInfo .zero,
        .moonRegister (nodeWith 8)] = none := by
  have hsome : (run step {} [.moonRegister (nodeWith 7), .reportClusterInfo .zero]).isSome := by
    decide +kernel
  have hnone : (run step {} [.moonRegister (nodeWith 7), .reportClusterInfo .zero,
      .moonRegister (nodeWith 8)]).isNone := by decide +kernel
  exact ⟨hsome, Option.isNone_iff_eq_none.mp hnone⟩

end Ecos.Cloud
