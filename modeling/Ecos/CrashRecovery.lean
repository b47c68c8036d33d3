import Ecos.Moon.RocksDBInfoStorage
import Ecos.Restart

namespace Ecos
open Go Logic Raft Alaya Moon

theorem Moon.RocksDBStorageRegister.replayable (marshal : BaseInfo → Bytes) :
    Replayable (RocksDBStorageRegister.operate marshal) := by
  intro x p q r
  have hmap : ((x.operateAll marshal (p ++ q)).operateAll marshal (q ++ r)).storageMap =
      (x.operateAll marshal (p ++ (q ++ r))).storageMap := by
    -- the storages of different types do not see each other's entries
    funext t
    simp only [RocksDBStorageRegister.storageMap_operateAll, Option.map_map]
    congr 1
    funext storage
    simp only [Function.comp_apply, List.filter_append]
    exact (RocksDBInfoStorage.follows marshal).replayable _ _ _ _
  exact congrArg RocksDBStorageRegister.mk hmap

/-- The storages after `L[1..a]`, to which `L[s+1..n]` is applied, are those after
`L[1..n]`. -/
theorem replay_converges (marshalMeta : ObjectMeta → Bytes) (marshalInfo : BaseInfo → Bytes)
    (L : List MetaOperate) (K : List ProposeInfoRequest) (s a n : ℕ) (hsa : s ≤ a) (han : a ≤ n) :
    (RocksDBMetaStorage.empty.operateAll marshalMeta (L.take a)).operateAll marshalMeta
        ((L.take n).drop s) =
      RocksDBMetaStorage.empty.operateAll marshalMeta (L.take n) ∧
    (RocksDBStorageRegister.registerAllStorage.operateAll marshalInfo (K.take a)).operateAll
        marshalInfo ((K.take n).drop s) =
      RocksDBStorageRegister.registerAllStorage.operateAll marshalInfo (K.take n) :=
  ⟨(RocksDBMetaStorage.follows marshalMeta).replayable.converges _ L hsa han,
    (RocksDBStorageRegister.replayable marshalInfo).converges _ K hsa han⟩

/-- A key that is put, deleted and put again; the snapshot lies before the deletion and the
node had applied the deletion. -/
theorem replay_converges_put_again :
    (RocksDBMetaStorage.empty.operateAll ObjectMeta.objId
        [⟨1, .PUT, sampleMeta⟩, ⟨2, .DELETE, sampleMeta⟩]).operateAll ObjectMeta.objId
        [⟨2, .DELETE, sampleMeta⟩, ⟨3, .PUT, sampleMeta⟩] =
      RocksDBMetaStorage.empty.operateAll ObjectMeta.objId
        [⟨1, .PUT, sampleMeta⟩, ⟨2, .DELETE, sampleMeta⟩, ⟨3, .PUT, sampleMeta⟩] :=
  (replay_converges ObjectMeta.objId BaseInfo.getID
    [⟨1, .PUT, sampleMeta⟩, ⟨2, .DELETE, sampleMeta⟩, ⟨3, .PUT, sampleMeta⟩] [] 1 2 3
    (by decide) (by decide)).1

section Restarted
variable {unmarshal : Bytes → Option ConfChange} {L : Log} {s a : ℕ} {ds : List Delivery} {l : Loop}

/-- What a node restarted from the snapshot at `s` hands over brings a storage that stands at
`a` to the end of the log. -/
theorem Raft.Served.converges {σ : Type} {apply : σ → Bytes → σ} (h : Served unmarshal L s ds l)
    (hno : NoInstall ds) (happly : Replayable apply) (x : σ) (hsa : s ≤ a)
    (han : a ≤ lastSeen s ds) :
    (handed l.commitC).foldl apply ((commandsBetween L 0 a).foldl apply x) =
      (commandsBetween L 0 (lastSeen s ds)).foldl apply x := by
  rw [h.handed_eq, segments_noInstall hno h.admissible, ← commandsBetween_append L hsa han,
    ← commandsBetween_append L (Nat.zero_le s) hsa,
    ← commandsBetween_append L (Nat.zero_le s) (hsa.trans han),
    ← commandsBetween_append L hsa han]
  exact happly x _ _ _

/-- The storages of a restarted node are those of a node that was never down. -/
theorem restarted_storages (h : Served unmarshal L s ds l) (hno : NoInstall ds) (hsa : s ≤ a)
    (han : a ≤ lastSeen s ds) (marshalMeta : ObjectMeta → Bytes) (decodeMeta : Bytes → MetaOperate)
    (marshalInfo : BaseInfo → Bytes) (decodeInfo : Bytes → ProposeInfoRequest) :
    (let apply := fun (x : RocksDBMetaStorage) data => x.operate marshalMeta (decodeMeta data)
     (handed l.commitC).foldl apply ((commandsBetween L 0 a).foldl apply .empty) =
       (commandsBetween L 0 (lastSeen s ds)).foldl apply .empty) ∧
    (let apply := fun (x : RocksDBStorageRegister) data => x.operate marshalInfo (decodeInfo data)
     (handed l.commitC).foldl apply ((commandsBetween L 0 a).foldl apply .registerAllStorage) =
       (commandsBetween L 0 (lastSeen s ds)).foldl apply .registerAllStorage) :=
  ⟨h.converges hno ((RocksDBMetaStorage.follows marshalMeta).replayable.comap decodeMeta) _ hsa han,
    h.converges hno ((RocksDBStorageRegister.replayable marshalInfo).comap decodeInfo) _ hsa han⟩

end Restarted

end Ecos
