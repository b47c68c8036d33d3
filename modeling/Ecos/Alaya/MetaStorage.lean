import Ecos.ByteMap
import Ecos.Object

namespace Ecos
open Go Logic Std

namespace Alaya

inductive Operate where
  | PUT
  | DELETE
  deriving DecidableEq, Repr

structure MetaOperate where
  operateId : UInt64 := 0
  operate : Operate
  objectMeta : ObjectMeta
  deriving DecidableEq, Repr

structure CfContent where
  cfName : Bytes := []
  keys : List Bytes
  values : List Bytes
  deriving DecidableEq, Repr

structure RocksDBMetaStorage where
  cf : ByteMap Bytes

namespace RocksDBMetaStorage

def empty : RocksDBMetaStorage := ⟨∅⟩

def recordMeta (marshal : ObjectMeta → Bytes) (s : RocksDBMetaStorage) (m : ObjectMeta) :
    RocksDBMetaStorage :=
  ⟨s.cf.insert m.objId (marshal m)⟩

def delete (s : RocksDBMetaStorage) (objID : Bytes) : RocksDBMetaStorage := ⟨s.cf.erase objID⟩

def createSnapshot {β : Type} (codec : Codec CfContent β) (s : RocksDBMetaStorage) : β :=
  codec.marshal { keys := s.cf.toList.map Prod.fst, values := s.cf.toList.map Prod.snd }

/-- The loop of `RecoverFromSnapshot`. It indexes the values by the position of the key and
panics where there is none. -/
def putAll (cf : ByteMap Bytes) : List Bytes → List Bytes → Option (ByteMap Bytes)
  | [], _ => some cf
  | _ :: _, [] => none
  | k :: ks, v :: vs => putAll (cf.insert k v) ks vs

def recoverFromSnapshot {β : Type} (codec : Codec CfContent β) (s : RocksDBMetaStorage)
    (snapshot : β) : Option RocksDBMetaStorage := do
  let content ← codec.unmarshal snapshot
  let cf ← putAll s.cf content.keys content.values
  return ⟨cf⟩

/-- What `readCommit` does with one decoded entry. -/
def operate (marshal : ObjectMeta → Bytes) (s : RocksDBMetaStorage) (o : MetaOperate) :
    RocksDBMetaStorage :=
  match o.operate with
  | .PUT => s.recordMeta marshal o.objectMeta
  | .DELETE => s.delete o.objectMeta.objId

def operateAll (marshal : ObjectMeta → Bytes) (s : RocksDBMetaStorage) (ops : List MetaOperate) :
    RocksDBMetaStorage :=
  ops.foldl (operate marshal) s

def lookup (s : RocksDBMetaStorage) : Bytes → Option Bytes := fun k => s.cf[k]?

end RocksDBMetaStorage

structure MemoryMetaStorage where
  metaMap : ByteMap ObjectMeta

namespace MemoryMetaStorage

def empty : MemoryMetaStorage := ⟨∅⟩

def recordMeta (s : MemoryMetaStorage) (m : ObjectMeta) : MemoryMetaStorage :=
  ⟨s.metaMap.insert m.objId m⟩

def getMeta (s : MemoryMetaStorage) (objID : Bytes) : Except Errno ObjectMeta :=
  match s.metaMap[objID]? with
  | some m => .ok m
  | none => .error .metaNotExist

def delete (s : MemoryMetaStorage) (objID : Bytes) : MemoryMetaStorage :=
  ⟨s.metaMap.erase objID⟩

/-- `List`, which compares the beginnings of the keys as raw strings. -/
def list (s : MemoryMetaStorage) (pre : Bytes) : List ObjectMeta :=
  (s.metaMap.toList.filter fun e => decide (pre <+: e.1)).map Prod.snd

/-- `json.Marshal` of a `sync.Map`, which has no exported field. -/
def createSnapshot (_ : MemoryMetaStorage) : Bytes := ascii ['\x7b', '\x7d']

def recoverFromSnapshot (s : MemoryMetaStorage) (_ : Bytes) : MemoryMetaStorage := s

def operate (s : MemoryMetaStorage) (o : MetaOperate) : MemoryMetaStorage :=
  match o.operate with
  | .PUT => s.recordMeta o.objectMeta
  | .DELETE => s.delete o.objectMeta.objId

theorem mem_list {s : MemoryMetaStorage} {pre : Bytes} {m : ObjectMeta} :
    m ∈ s.list pre ↔ ∃ k : Bytes, s.metaMap[k]? = some m ∧ pre <+: k := by
  simp only [list, List.mem_map, List.mem_filter, decide_eq_true_eq, Prod.exists,
    ExtTreeMap.mem_toList_iff_getElem?_eq_some]
  constructor
  · rintro ⟨k, m', ⟨hk, hpre⟩, rfl⟩
    exact ⟨k, hk, hpre⟩
  · rintro ⟨k, hk, hpre⟩
    exact ⟨k, m, ⟨hk, hpre⟩, rfl⟩

/-- Metas that are stored under their own IDs are listed once. -/
theorem nodup_list {s : MemoryMetaStorage} (pre : Bytes)
    (h : ∀ (k : Bytes) (m : ObjectMeta), s.metaMap[k]? = some m → m.objId = k) :
    (s.list pre).Nodup := by
  have hkeys := (s.metaMap.distinct_keys_toList).filter fun e => decide (pre <+: e.1)
  refine List.pairwise_map.mpr (hkeys.imp_of_mem fun {a b} ha hb hne heq => hne ?_)
  have hold : ∀ e ∈ s.metaMap.toList.filter fun e => decide (pre <+: e.1), e.2.objId = e.1 :=
    fun e he => h e.1 e.2 (ExtTreeMap.mem_toList_iff_getElem?_eq_some.mp (List.mem_of_mem_filter he))
  rw [LawfulEqCmp.compare_eq_iff_eq, ← hold a ha, ← hold b hb, heq]

end MemoryMetaStorage

end Alaya
end Ecos
