import Ecos.Alaya.MetaStorage

namespace Ecos.Alaya
open Go Logic Std RocksDBMetaStorage

def MetaOperate.op {ν : Type} (marshal : ObjectMeta → ν) (o : MetaOperate) : Op Bytes ν :=
  match o.operate with
  | .PUT => .put o.objectMeta.objId (marshal o.objectMeta)
  | .DELETE => .delete o.objectMeta.objId

@[simp] theorem MetaOperate.key_op {ν : Type} (marshal : ObjectMeta → ν) (o : MetaOperate) :
    (o.op marshal).key = o.objectMeta.objId := by
  unfold MetaOperate.op
  split <;> rfl

theorem touched_map_op {ν : Type} (marshal : ObjectMeta → ν) {ops : List MetaOperate} {k : Bytes} :
    Touched (ops.map (MetaOperate.op marshal)) k ↔ ∃ o ∈ ops, o.objectMeta.objId = k := by
  simp [Touched]

namespace RocksDBMetaStorage
variable (marshal : ObjectMeta → Bytes)

theorem ext_lookup {s t : RocksDBMetaStorage} (h : s.lookup = t.lookup) : s = t := by
  have hcf : s.cf = t.cf := ExtTreeMap.ext_getElem? fun k => congrFun h k
  cases s
  cases t
  exact congrArg _ hcf

theorem lookup_empty : empty.lookup = fun _ => none := by
  funext k
  exact ExtTreeMap.getElem?_empty

theorem lookup_operate (s : RocksDBMetaStorage) (o : MetaOperate) :
    (s.operate marshal o).lookup = applyOp s.lookup (o.op marshal) := by
  unfold operate MetaOperate.op
  cases o.operate
  · exact ByteMap.getElem?_insert s.cf _ _
  · exact ByteMap.getElem?_erase s.cf _

def follows : Follows (operate marshal) (MetaOperate.op marshal) where
  look := lookup
  look_injective _ _ := ext_lookup
  look_step := lookup_operate marshal

/-- The storage follows the log of puts and deletes. -/
theorem lookup_operateAll (s : RocksDBMetaStorage) (ops : List MetaOperate) :
    (s.operateAll marshal ops).lookup = replay s.lookup (ops.map (MetaOperate.op marshal)) :=
  (follows marshal).look_foldl s ops

/-- Putting the pairs of a snapshot one by one always succeeds, and is a log of puts. -/
theorem putAll_map (cf : ByteMap Bytes) (l : List (Bytes × Bytes)) :
    ∃ cf', putAll cf (l.map Prod.fst) (l.map Prod.snd) = some cf' ∧
      (fun k => cf'[k]?) = replay (fun k => cf[k]?) (puts l) := by
  induction l generalizing cf with
  | nil => exact ⟨cf, rfl, rfl⟩
  | cons e l ih =>
    obtain ⟨cf', hput, hlook⟩ := ih (cf.insert e.1 e.2)
    refine ⟨cf', hput, ?_⟩
    rw [hlook, ByteMap.getElem?_insert]
    rfl

theorem replay_toList (m : Bytes → Option Bytes) (cf : ByteMap Bytes) :
    replay m (puts cf.toList) = overlay (fun k => cf[k]?) m := by
  have hd : cf.toList.Pairwise fun a b => a.1 ≠ b.1 :=
    ExtTreeMap.distinct_keys_toList.imp fun h => by rwa [LawfulEqCmp.compare_eq_iff_eq] at h
  exact replay_puts hd fun _ _ => ExtTreeMap.mem_toList_iff_getElem?_eq_some

theorem recoverFromSnapshot_createSnapshot {β : Type} (codec : Codec CfContent β)
    (s t : RocksDBMetaStorage) :
    ∃ r, recoverFromSnapshot codec s (createSnapshot codec t) = some r ∧
      r.lookup = overlay t.lookup s.lookup := by
  obtain ⟨cf, hput, hlook⟩ := putAll_map s.cf t.cf.toList
  refine ⟨⟨cf⟩, ?_, ?_⟩
  · rw [recoverFromSnapshot, createSnapshot, codec.unmarshal_marshal]
    simp only [Option.bind_eq_bind, Option.bind_some, hput]
    rfl
  · exact hlook.trans (replay_toList _ _)

end RocksDBMetaStorage

/-- A replica that applied `L[1..a]`, installed the snapshot of `L[1..s]` and applied
`L[s+1..n]` equals one that applied `L[1..n]` exactly when the log touches after `s` every
key that was there at `a` and is gone at `s`. -/
theorem installed_replica_eq_iff {β : Type} (codec : Codec CfContent β)
    (marshal : ObjectMeta → Bytes) (L : List MetaOperate) (a s n : ℕ) (hsn : s ≤ n) :
    (recoverFromSnapshot codec (empty.operateAll marshal (L.take a))
        (createSnapshot codec (empty.operateAll marshal (L.take s)))).map
          (fun r => r.operateAll marshal ((L.take n).drop s)) =
        some (empty.operateAll marshal (L.take n)) ↔
      ∀ k, (empty.operateAll marshal (L.take a)).lookup k ≠ none →
        (empty.operateAll marshal (L.take s)).lookup k = none →
        ∃ o ∈ (L.take n).drop s, o.objectMeta.objId = k := by
  set A := empty.operateAll marshal (L.take a)
  set S := empty.operateAll marshal (L.take s)
  have hL : L.take n = L.take s ++ (L.take n).drop s := by
    have htake : (L.take n).take s = L.take s := by rw [List.take_take, min_eq_left hsn]
    rw [← htake, List.take_append_drop]
  have hdirect : empty.operateAll marshal (L.take n) =
      S.operateAll marshal ((L.take n).drop s) := by
    conv_lhs => rw [hL, operateAll, List.foldl_append]
    rfl
  obtain ⟨r, hr, hlook⟩ := recoverFromSnapshot_createSnapshot codec A S
  have heq : r.operateAll marshal ((L.take n).drop s) =
        S.operateAll marshal ((L.take n).drop s) ↔
      replay (overlay S.lookup A.lookup) (((L.take n).drop s).map (MetaOperate.op marshal)) =
        replay S.lookup (((L.take n).drop s).map (MetaOperate.op marshal)) := by
    rw [← hlook, ← lookup_operateAll, ← lookup_operateAll]
    exact ⟨fun h => congrArg lookup h, ext_lookup⟩
  rw [hr, hdirect, Option.map_some, Option.some.injEq, heq, replay_overlay_eq_iff]
  simp only [touched_map_op]

def sampleMeta : ObjectMeta := ⟨[107], 1, ⟨0, 0⟩, [], 1, [], 1⟩

/-- The deleted key is put again after the snapshot. -/
theorem installed_replica_eq_put_again :
    (recoverFromSnapshot (Codec.refl CfContent)
        (empty.operateAll ObjectMeta.objId [⟨1, .PUT, sampleMeta⟩])
        (createSnapshot (Codec.refl CfContent) (empty.operateAll ObjectMeta.objId
          [⟨1, .PUT, sampleMeta⟩, ⟨2, .DELETE, sampleMeta⟩]))).map
            (fun r => r.operateAll ObjectMeta.objId [⟨3, .PUT, sampleMeta⟩]) =
        some (empty.operateAll ObjectMeta.objId
          [⟨1, .PUT, sampleMeta⟩, ⟨2, .DELETE, sampleMeta⟩, ⟨3, .PUT, sampleMeta⟩]) := by
  refine (installed_replica_eq_iff (Codec.refl CfContent) ObjectMeta.objId
    [⟨1, .PUT, sampleMeta⟩, ⟨2, .DELETE, sampleMeta⟩, ⟨3, .PUT, sampleMeta⟩]
    1 2 3 (by decide)).mpr ?_
  intro k hk _
  refine ⟨⟨3, .PUT, sampleMeta⟩, List.mem_singleton_self _, ?_⟩
  by_contra hne
  refine hk ?_
  rw [lookup_operateAll, replay_of_not_touched, lookup_empty]
  rw [touched_map_op]
  rintro ⟨o, ho, rfl⟩
  rw [List.mem_singleton.mp ho] at hne
  exact hne rfl

/-- `PUT k` before the lagging replica stops, `DELETE k` before the snapshot: the installed
replica keeps `k`. -/
theorem installed_replica_keeps_deleted :
    (recoverFromSnapshot (Codec.refl CfContent)
        (empty.operateAll ObjectMeta.objId [⟨1, .PUT, sampleMeta⟩])
        (createSnapshot (Codec.refl CfContent) (empty.operateAll ObjectMeta.objId
          [⟨1, .PUT, sampleMeta⟩, ⟨2, .DELETE, sampleMeta⟩]))).map (fun r => r.lookup [107]) =
        some (some sampleMeta.objId) ∧
      (empty.operateAll ObjectMeta.objId
        [⟨1, .PUT, sampleMeta⟩, ⟨2, .DELETE, sampleMeta⟩]).lookup [107] = none := by
  obtain ⟨r, hr, hlook⟩ := recoverFromSnapshot_createSnapshot (Codec.refl CfContent)
    (empty.operateAll ObjectMeta.objId [⟨1, .PUT, sampleMeta⟩])
    (empty.operateAll ObjectMeta.objId [⟨1, .PUT, sampleMeta⟩, ⟨2, .DELETE, sampleMeta⟩])
  rw [lookup_operateAll, lookup_operateAll] at hlook
  rw [hr, Option.map_some, hlook, lookup_operateAll]
  exact ⟨rfl, rfl⟩

end Ecos.Alaya
