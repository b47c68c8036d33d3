import Ecos.Logic.PrefixScan
import Ecos.Moon.InfoStorage

namespace Ecos.Moon
open Go Logic Std

structure RocksDBInfoStorage where
  cf : ByteMap Bytes

namespace RocksDBInfoStorage
variable (marshal : BaseInfo → Bytes)

def empty : RocksDBInfoStorage := ⟨∅⟩

def update (s : RocksDBInfoStorage) (info : BaseInfo) : RocksDBInfoStorage :=
  ⟨s.cf.insert info.getID (marshal info)⟩

def delete (s : RocksDBInfoStorage) (id : Bytes) : RocksDBInfoStorage := ⟨s.cf.erase id⟩

variable (unmarshal : Bytes → Option BaseInfo)

/-- `Get`, which ignores that data cannot be read back. -/
def get (s : RocksDBInfoStorage) (id : Bytes) : Except Errno BaseInfo :=
  match s.cf[id]? with
  | none =>
    .error (.other ("key " ++ String.ofList (id.map fun c => Char.ofNat c.toNat) ++ " not found"))
  | some data => .ok ((unmarshal data).getD .unset)

/-- `Unmarshal` of the data of an entry. -/
def read (e : Bytes × Bytes) : Except Errno BaseInfo :=
  match unmarshal e.2 with
  | some info => .ok info
  | none => .error (.other "unmarshal")

/-- `List`: seeks the key and iterates while the keys extend it. -/
def list (s : RocksDBInfoStorage) (key : Bytes) : Except Errno (List BaseInfo) :=
  (scan s.cf key).mapM (read unmarshal)

variable {unmarshal} in
theorem mapM_read {l : List (Bytes × Bytes)} (h : ∀ e ∈ l, (unmarshal e.2).isSome) :
    l.mapM (read unmarshal) = .ok (l.filterMap fun e => unmarshal e.2) := by
  induction l with
  | nil => rfl
  | cons e l ih =>
    obtain ⟨info, hinfo⟩ := Option.isSome_iff_exists.mp (h e List.mem_cons_self)
    have hread : read unmarshal e = .ok info := by rw [read, hinfo]
    have hcons : (e :: l).filterMap (fun e => unmarshal e.2) =
        info :: l.filterMap fun e => unmarshal e.2 := List.filterMap_cons_some hinfo
    rw [List.mapM_cons, hread, ih fun x hx => h x (List.mem_cons_of_mem e hx), hcons]
    rfl

def operate (s : RocksDBInfoStorage) (msg : ProposeInfoRequest) : RocksDBInfoStorage :=
  match msg.operate with
  | .ADD => s.update marshal msg.baseInfo
  | .UPDATE => s.update marshal msg.baseInfo
  | .DELETE => s.delete msg.id

def op (msg : ProposeInfoRequest) : Op Bytes Bytes :=
  match msg.operate with
  | .ADD => .put msg.baseInfo.getID (marshal msg.baseInfo)
  | .UPDATE => .put msg.baseInfo.getID (marshal msg.baseInfo)
  | .DELETE => .delete msg.id

theorem lookup_operate (s : RocksDBInfoStorage) (msg : ProposeInfoRequest) :
    (fun k => (s.operate marshal msg).cf[k]?) = applyOp (fun k => s.cf[k]?) (op marshal msg) := by
  unfold operate op
  cases msg.operate
  · exact ByteMap.getElem?_insert s.cf _ _
  · exact ByteMap.getElem?_insert s.cf _ _
  · exact ByteMap.getElem?_erase s.cf _

def follows : Follows (operate marshal) (op marshal) where
  look s k := s.cf[k]?
  look_injective s t h := by
    have hcf : s.cf = t.cf := ExtTreeMap.ext_getElem? fun k => congrFun h k
    cases s
    cases t
    exact congrArg _ hcf
  look_step := lookup_operate marshal

end RocksDBInfoStorage

/-- `StorageRegister` over RocksDB storages. -/
structure RocksDBStorageRegister where
  storageMap : InfoType → Option RocksDBInfoStorage

namespace RocksDBStorageRegister
variable (marshal : BaseInfo → Bytes)

/-- `registerAllStorage` over a new database. -/
def registerAllStorage : RocksDBStorageRegister :=
  ⟨fun t => if t ∈ StorageRegister.registeredTypes then some .empty else none⟩

def update (r : RocksDBStorageRegister) (info : BaseInfo) : Except Errno RocksDBStorageRegister :=
  match r.storageMap info.getInfoType with
  | some s => .ok ⟨Function.update r.storageMap info.getInfoType (some (s.update marshal info))⟩
  | none => .error .infoTypeNotSupport

def delete (r : RocksDBStorageRegister) (infoType : InfoType) (id : Bytes) :
    Except Errno RocksDBStorageRegister :=
  match r.storageMap infoType with
  | some s => .ok ⟨Function.update r.storageMap infoType (some (s.delete id))⟩
  | none => .error .infoTypeNotSupport

variable (unmarshal : Bytes → Option BaseInfo)

def get (r : RocksDBStorageRegister) (infoType : InfoType) (id : Bytes) : Except Errno BaseInfo :=
  match r.storageMap infoType with
  | some s => s.get unmarshal id
  | none => .error .infoTypeNotSupport

def list (r : RocksDBStorageRegister) (infoType : InfoType) (key : Bytes) :
    Except Errno (List BaseInfo) :=
  match r.storageMap infoType with
  | some s => s.list unmarshal key
  | none => .error .infoTypeNotSupport

/-- One entry in `readCommits`, which logs an error and goes on. -/
def operate (r : RocksDBStorageRegister) (msg : ProposeInfoRequest) : RocksDBStorageRegister :=
  let result := match msg.operate with
    | .ADD => r.update marshal msg.baseInfo
    | .UPDATE => r.update marshal msg.baseInfo
    | .DELETE => r.delete msg.baseInfo.getInfoType msg.id
  match result with
  | .ok r' => r'
  | .error _ => r

def operateAll (r : RocksDBStorageRegister) (msgs : List ProposeInfoRequest) :
    RocksDBStorageRegister :=
  msgs.foldl (operate marshal) r

/-- An entry reaches the storage of its type, where there is one. -/
theorem storageMap_operate (r : RocksDBStorageRegister) (msg : ProposeInfoRequest) (t : InfoType) :
    (r.operate marshal msg).storageMap t = (r.storageMap t).map fun s =>
      if msg.baseInfo.getInfoType = t then s.operate marshal msg else s := by
  by_cases ht : msg.baseInfo.getInfoType = t
  · subst ht
    cases hs : r.storageMap msg.baseInfo.getInfoType with
    | none => cases ho : msg.operate <;> simp [operate, update, delete, ho, hs]
    | some s =>
      cases ho : msg.operate <;>
        simp [operate, update, delete, RocksDBInfoStorage.operate, ho, hs]
  · have hne : t ≠ msg.baseInfo.getInfoType := Ne.symm ht
    cases hs : r.storageMap msg.baseInfo.getInfoType with
    | none => cases ho : msg.operate <;> simp [operate, update, delete, ho, hs, ht]
    | some s => cases ho : msg.operate <;> simp [operate, update, delete, ho, hs, ht, hne]

/-- The storage of a type sees the entries of that type. -/
theorem storageMap_operateAll (r : RocksDBStorageRegister) (msgs : List ProposeInfoRequest)
    (t : InfoType) :
    (r.operateAll marshal msgs).storageMap t = (r.storageMap t).map fun s =>
      (msgs.filter fun msg => msg.baseInfo.getInfoType = t).foldl
        (RocksDBInfoStorage.operate marshal) s := by
  induction msgs generalizing r with
  | nil => simp [operateAll]
  | cons msg msgs ih =>
    show ((r.operate marshal msg).operateAll marshal msgs).storageMap t = _
    rw [ih, storageMap_operate, Option.map_map]
    by_cases ht : msg.baseInfo.getInfoType = t <;> simp [Function.comp_def, ht]

end RocksDBStorageRegister

end Ecos.Moon
