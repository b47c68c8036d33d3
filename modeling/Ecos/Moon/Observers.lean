import Ecos.Moon.InfoSnapshot
import Ecos.Watcher

namespace Ecos.Moon
open Go Logic Watcher

structure Database where
  register : RocksDBStorageRegister
  wellFormed : register.WellFormed

/-- A node as far as `readCommits` changes it. -/
structure ObservedNode where
  register : RocksDBStorageRegister
  watcher : Watcher.Node := {}

/-- What `readCommits` takes from its channel, entry by entry. -/
inductive CommitEvent where
  | entry (msg : ProposeInfoRequest)
  /-- a snapshot that another node made of its database -/
  | snapshot (source : Database)

def BaseInfo.getClusterInfo : BaseInfo → Option ClusterInfo
  | clusterInfo info => some info
  | _ => none

def notified (r : RocksDBStorageRegister) (msg : ProposeInfoRequest) : Option ClusterInfo :=
  match msg.operate, msg.baseInfo, r.storageMap .CLUSTER_INFO with
  | .ADD, .clusterInfo info, some _ => some info
  | .UPDATE, .clusterInfo info, some _ => some info
  | _, _, _ => none

section
variable (marshal : BaseInfo → Bytes) (unmarshal : Bytes → Option BaseInfo)

/-- One step of `readCommits`, `none` where the recovery crashes. -/
def readCommit (n : ObservedNode) : CommitEvent → Option ObservedNode
  | .entry msg => some {
      register := n.register.operate marshal msg
      watcher := (notified n.register msg).elim n.watcher n.watcher.clusterInfoChanged }
  | .snapshot source => do
    let register ← n.register.recoverFromSnapshot source.register.getSnapshot
    return { n with register }

def storedClusterInfos (r : RocksDBStorageRegister) : List (Bytes × ClusterInfo) :=
  ((r.storageMap .CLUSTER_INFO).elim [] fun s => s.cf.toList).filterMap fun e =>
    ((unmarshal e.2).bind BaseInfo.getClusterInfo).map fun info => (e.1, info)

/-- The watcher's cluster info is not older than any that is stored. -/
def UpToDate (n : ObservedNode) : Prop :=
  ∀ e ∈ storedClusterInfos unmarshal n.register, e.2.term ≤ n.watcher.currentClusterInfo.term

/-- An entry adds no cluster info that is older than a stored one, and a snapshot brings none that
is newer than the watcher's. -/
def Fresh (n : ObservedNode) : CommitEvent → Prop
  | .entry msg => ∀ info ∈ (notified n.register msg).toList,
      ∀ e ∈ storedClusterInfos unmarshal n.register,
        e.1 ≠ (BaseInfo.clusterInfo info).getID → e.2.term ≤ info.term
  | .snapshot source => ∀ e ∈ storedClusterInfos unmarshal source.register,
      e.2.term ≤ n.watcher.currentClusterInfo.term

instance decidableFresh (n : ObservedNode) : ∀ ev, Decidable (Fresh unmarshal n ev)
  | .entry _ => inferInstanceAs (Decidable (∀ info ∈ Option.toList _, _))
  | .snapshot _ => inferInstanceAs (Decidable (∀ e ∈ storedClusterInfos _ _, _))

end

variable {marshal : BaseInfo → Bytes} {unmarshal : Bytes → Option BaseInfo}
  {r : RocksDBStorageRegister} {id : Bytes} {info : ClusterInfo}

theorem clusterInfo_registered : InfoType.CLUSTER_INFO ∈ StorageRegister.registeredTypes := by
  decide

theorem mem_storedClusterInfos : (id, info) ∈ storedClusterInfos unmarshal r ↔
    ∃ data, r.lookup (.CLUSTER_INFO, id) = some data ∧
      (unmarshal data).bind BaseInfo.getClusterInfo = some info := by
  rw [storedClusterInfos, RocksDBStorageRegister.lookup]
  cases r.storageMap .CLUSTER_INFO with
  | none => simp
  | some s =>
    simp only [Option.elim_some, Option.bind_some, List.mem_filterMap, Option.map_eq_some_iff,
      Prod.exists, Std.ExtTreeMap.mem_toList_iff_getElem?_eq_some, Prod.mk.injEq]
    constructor
    · rintro ⟨k, data, hk, i, hi, rfl, rfl⟩
      exact ⟨data, hk, hi⟩
    · rintro ⟨data, hk, hi⟩
      exact ⟨id, data, hk, info, hi, rfl, rfl⟩

theorem getClusterInfo_eq_some {b : BaseInfo} (h : b.getInfoType = .CLUSTER_INFO) :
    ∃ i, b = .clusterInfo i := by
  cases b with
  | clusterInfo i => exact ⟨i, rfl⟩
  | unset | nodeInfo _ | bucketInfo _ | userInfo _ | groupInfo _ | volumeInfo _ | accessInfo _ =>
    cases h

theorem notified_of_ne {msg : ProposeInfoRequest} (h : msg.baseInfo.getInfoType ≠ .CLUSTER_INFO) :
    notified r msg = none := by
  unfold notified
  split
  · rename_i hb _
    exact absurd (by rw [hb]; rfl) h
  · rename_i hb _
    exact absurd (by rw [hb]; rfl) h
  · rfl

theorem notified_delete {msg : ProposeInfoRequest} (h : msg.operate = .DELETE) :
    notified r msg = none := by
  unfold notified
  rw [h]

section Entries
variable (hr : r.WellFormed) {msg : ProposeInfoRequest}
include hr

theorem notified_put (hb : msg.baseInfo = .clusterInfo info) (ho : msg.operate ≠ .DELETE) :
    notified r msg = some info := by
  obtain ⟨s, hs⟩ := hr.exists_storage clusterInfo_registered
  unfold notified
  rw [hb, hs]
  cases h : msg.operate with
  | ADD => rfl
  | UPDATE => rfl
  | DELETE => exact absurd h ho

theorem mem_stored_operate : (id, info) ∈ storedClusterInfos unmarshal (r.operate marshal msg) ↔
    ∃ data, (if msg.baseInfo.getInfoType = .CLUSTER_INFO then
        applyOp (fun k => r.lookup (.CLUSTER_INFO, k)) (RocksDBInfoStorage.op marshal msg) id
      else r.lookup (.CLUSTER_INFO, id)) = some data ∧
      (unmarshal data).bind BaseInfo.getClusterInfo = some info := by
  rw [mem_storedClusterInfos, hr.lookup_operate marshal msg clusterInfo_registered]

theorem mem_stored_of_ne (h : msg.baseInfo.getInfoType ≠ .CLUSTER_INFO) :
    (id, info) ∈ storedClusterInfos unmarshal (r.operate marshal msg) ↔
      (id, info) ∈ storedClusterInfos unmarshal r := by
  rw [mem_stored_operate hr, if_neg h, mem_storedClusterInfos]

theorem mem_stored_put {i : ClusterInfo} (hb : msg.baseInfo = .clusterInfo i)
    (ho : msg.operate ≠ .DELETE) (hinv : unmarshal (marshal msg.baseInfo) = some msg.baseInfo) :
    (id, info) ∈ storedClusterInfos unmarshal (r.operate marshal msg) ↔
      id = (BaseInfo.clusterInfo i).getID ∧ info = i ∨
        id ≠ (BaseInfo.clusterInfo i).getID ∧ (id, info) ∈ storedClusterInfos unmarshal r := by
  have hop : RocksDBInfoStorage.op marshal msg =
      .put (BaseInfo.clusterInfo i).getID (marshal msg.baseInfo) := by
    unfold RocksDBInfoStorage.op
    cases h : msg.operate with
    | ADD => rw [hb]
    | UPDATE => rw [hb]
    | DELETE => exact absurd h ho
  have htype : msg.baseInfo.getInfoType = .CLUSTER_INFO := by rw [hb]; rfl
  rw [mem_stored_operate hr, if_pos htype, hop, applyOp, Function.update_apply,
    mem_storedClusterInfos]
  by_cases hid : id = (BaseInfo.clusterInfo i).getID
  · have hread : (unmarshal (marshal msg.baseInfo)).bind BaseInfo.getClusterInfo = some i := by
      rw [hinv, hb]
      rfl
    simp only [Op.key, Op.value, hid, if_true, Option.some.injEq, exists_eq_left', hread, true_and,
      ne_eq, not_true_eq_false, false_and, or_false]
    exact eq_comm
  · simp only [Op.key, hid, if_false, false_and, false_or, ne_eq, not_false_eq_true, true_and]

theorem mem_stored_delete (ho : msg.operate = .DELETE)
    (h : (id, info) ∈ storedClusterInfos unmarshal (r.operate marshal msg)) :
    (id, info) ∈ storedClusterInfos unmarshal r := by
  rw [mem_stored_operate hr] at h
  rw [mem_storedClusterInfos]
  split_ifs at h
  · have hop : RocksDBInfoStorage.op marshal msg = .delete msg.id := by
      unfold RocksDBInfoStorage.op
      rw [ho]
    rw [hop, applyOp, Function.update_apply] at h
    split_ifs at h
    · obtain ⟨data, hdata, -⟩ := h
      cases hdata
    · exact h
  · exact h

end Entries

variable {n : ObservedNode}

theorem upToDate_entry (hr : n.register.WellFormed) {msg : ProposeInfoRequest}
    (hinv : unmarshal (marshal msg.baseInfo) = some msg.baseInfo) (hup : UpToDate unmarshal n) :
    UpToDate unmarshal {
        register := n.register.operate marshal msg
        watcher := (notified n.register msg).elim n.watcher n.watcher.clusterInfoChanged } ↔
      Fresh unmarshal n (.entry msg) := by
  by_cases htype : msg.baseInfo.getInfoType = .CLUSTER_INFO
  · obtain ⟨i, hi⟩ := getClusterInfo_eq_some htype
    by_cases ho : msg.operate = .DELETE
    · rw [UpToDate, Fresh, notified_delete ho]
      exact iff_of_true (fun e he => hup e (mem_stored_delete hr ho he)) (by simp)
    · rw [UpToDate, Fresh, notified_put hr hi ho]
      simp only [Prod.forall, mem_stored_put hr hi ho hinv, Option.toList_some,
        List.mem_singleton, forall_eq]
      constructor
      · exact fun h id old hold hne => h id old (.inr ⟨hne, hold⟩)
      · rintro h id old (⟨-, rfl⟩ | ⟨hne, hold⟩)
        · exact UInt64.le_refl _
        · exact h id old hold hne
  · rw [UpToDate, Fresh, notified_of_ne htype]
    exact iff_of_true (fun e he => hup e ((mem_stored_of_ne hr htype).mp he)) (by simp)

theorem upToDate_snapshot {r' : RocksDBStorageRegister} {source : Database}
    (hlook : r'.lookup = overlay source.register.lookup n.register.lookup)
    (hup : UpToDate unmarshal n) :
    UpToDate unmarshal { n with register := r' } ↔ Fresh unmarshal n (.snapshot source) := by
  have hk : ∀ id, r'.lookup (.CLUSTER_INFO, id) = (source.register.lookup (.CLUSTER_INFO, id)).or
      (n.register.lookup (.CLUSTER_INFO, id)) := fun id => congrFun hlook _
  rw [UpToDate, Fresh]
  simp only [Prod.forall, mem_storedClusterInfos]
  constructor
  · rintro h id info ⟨data, hdata, hread⟩
    exact h id info ⟨data, by rw [hk, hdata, Option.some_or], hread⟩
  · rintro h id info ⟨data, hdata, hread⟩
    rw [hk, Option.or_eq_some_iff] at hdata
    rcases hdata with hdata | ⟨-, hdata⟩
    · exact h id info ⟨data, hdata, hread⟩
    · exact hup (id, info) (mem_storedClusterInfos.mpr ⟨data, hdata, hread⟩)

def ObservedNode.new : ObservedNode := { register := .registerAllStorage }

theorem upToDate_new : UpToDate unmarshal .new := by
  rintro ⟨id, info⟩ he
  obtain ⟨data, hdata, -⟩ := mem_storedClusterInfos.mp he
  rw [ObservedNode.new, RocksDBStorageRegister.lookup_registerAllStorage] at hdata
  cases hdata

/-- The watcher is never behind the cluster info storage exactly where each entry adds a cluster
info at least as new as those stored, and no snapshot brings one that is newer than the
watcher's. -/
theorem upToDate_iff_fresh (marshal : BaseInfo → Bytes) (unmarshal : Bytes → Option BaseInfo)
    (events : List CommitEvent)
    (hinv : ∀ msg, .entry msg ∈ events → unmarshal (marshal msg.baseInfo) = some msg.baseInfo) :
    Meets (readCommit marshal) (Fresh unmarshal) .new events ↔
      ∀ es, es <+: events →
        ∃ n, run (readCommit marshal) .new es = some n ∧ UpToDate unmarshal n := by
  refine meets_iff_forall_initial (W := fun n : ObservedNode => n.register.WellFormed)
    (fun ev hev n hr hup => ?_) RocksDBStorageRegister.wellFormed_registerAllStorage upToDate_new
  cases ev with
  | entry msg => exact ⟨_, rfl, hr.operate marshal msg, upToDate_entry hr (hinv msg hev) hup⟩
  | snapshot source =>
    obtain ⟨r', hrecover, hr', hlook⟩ := hr.recoverFromSnapshot source.wellFormed
    refine ⟨{ n with register := r' }, ?_, hr', upToDate_snapshot hlook hup⟩
    rw [readCommit, hrecover]
    rfl

def addTerm (term : UInt64) : ProposeInfoRequest where
  operate := .ADD
  id := formatNat term.toNat
  baseInfo := .clusterInfo { ClusterInfo.zero with term }

def unmarshalTerm (data : Bytes) : Option BaseInfo :=
  (parseDigits data).map fun n => .clusterInfo { ClusterInfo.zero with term := UInt64.ofNat n }

def databaseOf (terms : List UInt64) : Database where
  register := RocksDBStorageRegister.registerAllStorage.operateAll BaseInfo.getID (terms.map addTerm)
  wellFormed := RocksDBStorageRegister.wellFormed_registerAllStorage.operateAll _ _

theorem unmarshalTerm_getID (term : UInt64) :
    unmarshalTerm (addTerm term).baseInfo.getID = some (addTerm term).baseInfo := by
  rw [unmarshalTerm, addTerm, BaseInfo.getID, parseDigits_formatNat, Option.map_some,
    UInt64.ofNat_toNat]

def sameTerm : List CommitEvent :=
  [.entry (addTerm 1), .snapshot (databaseOf [1]), .entry (addTerm 2)]

theorem upToDate_sameTerm : ∃ n, run (readCommit BaseInfo.getID) .new sameTerm = some n ∧
    UpToDate unmarshalTerm n := by
  have hinv : ∀ msg, .entry msg ∈ sameTerm →
      unmarshalTerm msg.baseInfo.getID = some msg.baseInfo := by
    intro msg hmsg
    simp only [sameTerm, List.mem_cons, CommitEvent.entry.injEq, reduceCtorEq, List.not_mem_nil,
      false_or, or_false] at hmsg
    rcases hmsg with rfl | rfl <;> exact unmarshalTerm_getID _
  exact (upToDate_iff_fresh BaseInfo.getID unmarshalTerm sameTerm hinv).mp (by decide +kernel)
    sameTerm (List.prefix_refl _)

def missedTerm : List CommitEvent := [.entry (addTerm 7), .snapshot (databaseOf [7, 9])]

theorem isSome_run_missedTerm :
    (run (readCommit BaseInfo.getID) .new missedTerm).isSome = true := by
  decide +kernel

def overtaken : ObservedNode :=
  (run (readCommit BaseInfo.getID) .new missedTerm).get isSome_run_missedTerm

/-- It has term 9 in its storage and goes on with term 7. -/
theorem snapshot_overtakes_watcher :
    run (readCommit BaseInfo.getID) .new missedTerm = some overtaken ∧
      overtaken.watcher.currentClusterInfo.term = 7 ∧
      ([57], { ClusterInfo.zero with term := 9 }) ∈
        storedClusterInfos unmarshalTerm overtaken.register ∧
      ¬ UpToDate unmarshalTerm overtaken := by
  have hterm : overtaken.watcher.currentClusterInfo.term = 7 := by decide +kernel
  have hstored : ([57], { ClusterInfo.zero with term := 9 }) ∈
      storedClusterInfos unmarshalTerm overtaken.register := by decide +kernel
  refine ⟨(Option.some_get isSome_run_missedTerm).symm, hterm, hstored, fun hup => ?_⟩
  have hle := hup _ hstored
  rw [hterm] at hle
  exact absurd hle (by decide)

end Ecos.Moon
