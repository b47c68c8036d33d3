import Ecos.ByteMap
import Ecos.Infos

namespace Ecos.Moon
open Go Logic Std

inductive InfoType where
  | INVALID
  | NODE_INFO
  | BUCKET_INFO
  | CLUSTER_INFO
  | USER_INFO
  | GROUP_INFO
  | VOLUME_INFO
  | ACCESS_INFO
  deriving DecidableEq, Repr

inductive NodeState where
  | UNKNOWN
  | ONLINE
  | OFFLINE
  | ERROR
  deriving DecidableEq, Repr

structure NodeInfo where
  raftId : UInt64
  uuid : Bytes
  ipAddr : Bytes
  rpcPort : UInt64
  capacity : UInt64
  state : NodeState
  deriving DecidableEq, Repr

structure ClusterInfo where
  term : UInt64
  leaderInfo : Option NodeInfo
  nodesInfo : List NodeInfo
  metaPgNum : Int32
  metaPgSize : Int32
  blockPgNum : Int32
  blockPgSize : Int32
  lastTerm : UInt64
  deriving DecidableEq, Repr

def ClusterInfo.zero : ClusterInfo := ⟨0, none, [], 0, 0, 0, 0, 0⟩

/-- `b` names the term of `a` as its last one and has a later term. -/
def ClusterInfo.Succeeds (a b : ClusterInfo) : Prop := b.lastTerm = a.term ∧ a.term < b.term

instance (a b : ClusterInfo) : Decidable (a.Succeeds b) := instDecidableAnd

/-- A history of cluster infos whose terms increase and are linked by `LastTerm`. -/
def Linked (infos : List ClusterInfo) : Prop :=
  (ClusterInfo.zero :: infos).IsChain ClusterInfo.Succeeds

/-- The kinds that `BaseInfo.GetInfoType` does not know are kept with their IDs only. -/
inductive BaseInfo where
  | unset
  | nodeInfo (info : NodeInfo)
  | clusterInfo (info : ClusterInfo)
  | bucketInfo (info : BucketInfo)
  | userInfo (userId : Bytes)
  | groupInfo (groupId : Bytes)
  | volumeInfo (volumeId : Bytes)
  | accessInfo (accessKey : Bytes)
  deriving DecidableEq, Repr

namespace BaseInfo

def getInfoType : BaseInfo → InfoType
  | nodeInfo _ => .NODE_INFO
  | clusterInfo _ => .CLUSTER_INFO
  | bucketInfo _ => .BUCKET_INFO
  | _ => .INVALID

def getID : BaseInfo → Bytes
  | nodeInfo info => formatNat info.raftId.toNat
  | bucketInfo info => info.getID
  | clusterInfo info => formatNat info.term.toNat
  | _ => ascii ['I', 'N', 'F', 'O', '_', 'T', 'Y', 'P', 'E', '_', 'I', 'N', 'V', 'A', 'L', 'I', 'D']

end BaseInfo

/-- The values of the interface `Information` that are stored. -/
inductive Information where
  | baseInfo (info : BaseInfo)
  | nodeInfo (info : NodeInfo)
  | clusterInfo (info : ClusterInfo)
  | bucketInfo (info : BucketInfo)
  | userInfo (userId : Bytes)
  | volumeInfo (volumeId : Bytes)
  deriving DecidableEq, Repr

namespace Information

/-- `BaseInfo()` -/
def base : Information → BaseInfo
  | baseInfo info => info
  | nodeInfo info => .nodeInfo info
  | clusterInfo info => .clusterInfo info
  | bucketInfo info => .bucketInfo info
  | userInfo userId => .userInfo userId
  | volumeInfo volumeId => .volumeInfo volumeId

def getInfoType : Information → InfoType
  | baseInfo info => info.getInfoType
  | nodeInfo _ => .NODE_INFO
  | clusterInfo _ => .CLUSTER_INFO
  | bucketInfo _ => .BUCKET_INFO
  | userInfo _ => .USER_INFO
  | volumeInfo _ => .VOLUME_INFO

def getID : Information → Bytes
  | baseInfo info => info.getID
  | nodeInfo info => formatNat info.raftId.toNat
  | clusterInfo info => formatNat info.term.toNat
  | bucketInfo info => info.getID
  | userInfo userId => userId
  | volumeInfo volumeId => volumeId

end Information

/-- The infos are seen through `BaseInfo()`. -/
structure MemoryInfoStorage where
  kvStorage : ByteMap BaseInfo

namespace MemoryInfoStorage

def empty : MemoryInfoStorage := ⟨∅⟩

def update (s : MemoryInfoStorage) (info : BaseInfo) : MemoryInfoStorage :=
  ⟨s.kvStorage.insert info.getID info⟩

/-- `Update` with any info. -/
def updateInfo (s : MemoryInfoStorage) (info : Information) : MemoryInfoStorage :=
  ⟨s.kvStorage.insert info.getID info.base⟩

def delete (s : MemoryInfoStorage) (id : Bytes) : MemoryInfoStorage := ⟨s.kvStorage.erase id⟩

def get (s : MemoryInfoStorage) (id : Bytes) : Except Errno BaseInfo :=
  match s.kvStorage[id]? with
  | some info => .ok info
  | none => .error .infoNotFound

/-- `key[:n]`, which panics where the key is shorter. -/
def slice (key : Bytes) (n : ℕ) : Option Bytes := if n ≤ key.length then some (key.take n) else none

/-- What `List` does with one entry. -/
def visit (key : Bytes) (infos : List BaseInfo) (e : Bytes × BaseInfo) : Option (List BaseInfo) := do
  let start ← slice e.1 key.length
  return if start = key then infos ++ [e.2] else infos

/-- `List`, on the entries in the order in which `Range` visits them. -/
def list (entries : List (Bytes × BaseInfo)) (key : Bytes) : Option (List BaseInfo) :=
  entries.foldlM (visit key) []

end MemoryInfoStorage

/-- `StorageRegister` over memory storages. -/
structure StorageRegister where
  storageMap : InfoType → Option MemoryInfoStorage

namespace StorageRegister

def registeredTypes : List InfoType :=
  [.NODE_INFO, .CLUSTER_INFO, .USER_INFO, .BUCKET_INFO, .VOLUME_INFO]

/-- `registerAllStorage` of the builder. -/
def registerAllStorage : StorageRegister :=
  ⟨fun t => if t ∈ registeredTypes then some MemoryInfoStorage.empty else none⟩

def update (r : StorageRegister) (info : BaseInfo) : Except Errno StorageRegister :=
  match r.storageMap info.getInfoType with
  | some s => .ok ⟨Function.update r.storageMap info.getInfoType (some (s.update info))⟩
  | none => .error .infoTypeNotSupport

def delete (r : StorageRegister) (infoType : InfoType) (id : Bytes) : Except Errno StorageRegister :=
  match r.storageMap infoType with
  | some s => .ok ⟨Function.update r.storageMap infoType (some (s.delete id))⟩
  | none => .error .infoTypeNotSupport

def get (r : StorageRegister) (infoType : InfoType) (id : Bytes) : Except Errno BaseInfo :=
  match r.storageMap infoType with
  | some s => s.get id
  | none => .error .infoTypeNotSupport

/-- `MemoryInfoStorageFactory.GetSnapshot` returns nil. -/
def getSnapshot (_ : StorageRegister) : Bytes := []

def recoverFromSnapshot (r : StorageRegister) (_ : Bytes) : StorageRegister := r

end StorageRegister

inductive InfoOperate where
  | ADD
  | UPDATE
  | DELETE
  deriving DecidableEq, Repr

structure ProposeInfoRequest where
  operate : InfoOperate
  operateId : UInt64 := 0
  id : Bytes
  baseInfo : BaseInfo
  deriving DecidableEq, Repr

/-- One entry in `readCommits`, which logs an error and goes on. -/
def StorageRegister.operate (r : StorageRegister) (msg : ProposeInfoRequest) : StorageRegister :=
  let result := match msg.operate with
    | .ADD => r.update msg.baseInfo
    | .UPDATE => r.update msg.baseInfo
    | .DELETE => r.delete msg.baseInfo.getInfoType msg.id
  match result with
  | .ok r' => r'
  | .error _ => r

namespace StorageRegister

def WellFormed (r : StorageRegister) : Prop :=
  ∀ t, (r.storageMap t).isSome = true ↔ t ∈ registeredTypes

def lookup (r : StorageRegister) (k : InfoType × Bytes) : Option BaseInfo :=
  (r.storageMap k.1).bind fun s => s.kvStorage[k.2]?

theorem wellFormed_registerAllStorage : registerAllStorage.WellFormed := by
  intro t
  simp only [registerAllStorage]
  split_ifs with h
  · exact iff_of_true rfl h
  · exact iff_of_false (by simp) h

theorem lookup_registerAllStorage : registerAllStorage.lookup = fun _ => none := by
  funext k
  simp only [lookup, registerAllStorage]
  split_ifs
  · exact ExtTreeMap.getElem?_empty
  · rfl

theorem WellFormed.exists_storage {r : StorageRegister} (hr : r.WellFormed) {t : InfoType}
    (ht : t ∈ registeredTypes) : ∃ s, r.storageMap t = some s :=
  Option.isSome_iff_exists.mp ((hr t).mpr ht)

theorem WellFormed.storageMap_eq_none {r : StorageRegister} (hr : r.WellFormed) {t : InfoType}
    (ht : t ∉ registeredTypes) : r.storageMap t = none := by
  rw [← Option.not_isSome_iff_eq_none, hr t]
  exact ht

theorem WellFormed.set {r : StorageRegister} (hr : r.WellFormed) {t : InfoType}
    (ht : t ∈ registeredTypes) (s : MemoryInfoStorage) :
    WellFormed ⟨Function.update r.storageMap t (some s)⟩ := by
  intro t'
  by_cases h : t' = t
  · subst h
    exact iff_of_true (by simp) ht
  · simp only [Function.update_of_ne h]
    exact hr t'

/-- Replacing the storage of one type by one that went through an operation. -/
theorem lookup_set {r : StorageRegister} {t : InfoType} {s s' : MemoryInfoStorage}
    {op : Op Bytes BaseInfo} (hs : r.storageMap t = some s)
    (hop : (fun j => s'.kvStorage[j]?) = applyOp (fun j => s.kvStorage[j]?) op) :
    lookup ⟨Function.update r.storageMap t (some s')⟩ =
      Function.update r.lookup (t, op.key) op.value := by
  funext k
  obtain ⟨t', j⟩ := k
  by_cases h : t' = t
  · subst h
    have hj := congrFun hop j
    rw [applyOp, Function.update_apply] at hj
    simp only [lookup, Function.update_self, Option.bind_some, hj, Function.update_apply,
      Prod.mk.injEq, true_and, hs]
  · have hne : (t', j) ≠ (t, op.key) := fun he => h (congrArg Prod.fst he)
    rw [Function.update_of_ne hne]
    simp only [lookup, Function.update_of_ne h]

end StorageRegister

open StorageRegister

def ProposeInfoRequest.op (msg : ProposeInfoRequest) : Option (Op (InfoType × Bytes) BaseInfo) :=
  if msg.baseInfo.getInfoType ∈ registeredTypes then
    match msg.operate with
    | .ADD => some (.put (msg.baseInfo.getInfoType, msg.baseInfo.getID) msg.baseInfo)
    | .UPDATE => some (.put (msg.baseInfo.getInfoType, msg.baseInfo.getID) msg.baseInfo)
    | .DELETE => some (.delete (msg.baseInfo.getInfoType, msg.id))
  else none

namespace StorageRegister

theorem operate_of_not_registered {r : StorageRegister} (hr : r.WellFormed)
    {msg : ProposeInfoRequest} (ht : msg.baseInfo.getInfoType ∉ registeredTypes) :
    r.operate msg = r := by
  have hnone := hr.storageMap_eq_none ht
  unfold operate update delete
  cases msg.operate <;> simp only [hnone]

theorem operate_registered {r : StorageRegister} (hr : r.WellFormed) {msg : ProposeInfoRequest}
    (ht : msg.baseInfo.getInfoType ∈ registeredTypes) :
    (r.operate msg).WellFormed ∧
      (r.operate msg).lookup = replay r.lookup msg.op.toList := by
  obtain ⟨s, hs⟩ := hr.exists_storage ht
  unfold operate update delete ProposeInfoRequest.op
  rw [if_pos ht]
  cases msg.operate with
  | ADD =>
    simp only [hs]
    exact ⟨hr.set ht _, lookup_set hs (ByteMap.getElem?_insert s.kvStorage _ _)⟩
  | UPDATE =>
    simp only [hs]
    exact ⟨hr.set ht _, lookup_set hs (ByteMap.getElem?_insert s.kvStorage _ _)⟩
  | DELETE =>
    simp only [hs]
    exact ⟨hr.set ht _, lookup_set hs (ByteMap.getElem?_erase s.kvStorage _)⟩

theorem wellFormed_operate {r : StorageRegister} (hr : r.WellFormed) (msg : ProposeInfoRequest) :
    (r.operate msg).WellFormed := by
  by_cases ht : msg.baseInfo.getInfoType ∈ registeredTypes
  · exact (operate_registered hr ht).1
  · rwa [operate_of_not_registered hr ht]

theorem lookup_operate {r : StorageRegister} (hr : r.WellFormed) (msg : ProposeInfoRequest) :
    (r.operate msg).lookup = replay r.lookup msg.op.toList := by
  by_cases ht : msg.baseInfo.getInfoType ∈ registeredTypes
  · exact (operate_registered hr ht).2
  · rw [operate_of_not_registered hr ht, ProposeInfoRequest.op, if_neg ht]
    rfl

theorem get_eq_get_iff {r r' : StorageRegister} (hr : r.WellFormed) (hr' : r'.WellFormed)
    (k : InfoType × Bytes) : r.get k.1 k.2 = r'.get k.1 k.2 ↔ r.lookup k = r'.lookup k := by
  unfold get lookup MemoryInfoStorage.get
  by_cases ht : k.1 ∈ registeredTypes
  · obtain ⟨s, hs⟩ := hr.exists_storage ht
    obtain ⟨s', hs'⟩ := hr'.exists_storage ht
    simp only [hs, hs', Option.bind_some]
    cases s.kvStorage[k.2]? <;> cases s'.kvStorage[k.2]? <;> simp
  · simp only [hr.storageMap_eq_none ht, hr'.storageMap_eq_none ht]

end StorageRegister

end Ecos.Moon
