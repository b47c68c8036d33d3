import Ecos.Alaya.MetaStorage

namespace Ecos.Alaya
open Go Std

/-- `MemoryMetaStorageRegister`: the storages by placement group. -/
abbrev Register := ExtTreeMap UInt64 MemoryMetaStorage compare

variable (ring : Mapper) (a : AlayaEnv)

def checkClientTerm (current clientTerm : UInt64) : Except Errno UInt64 :=
  if clientTerm ≠ current then .error .termNotMatch else .ok clientTerm

/-- `checkObject`, with the meta it modifies. -/
def checkObject (term : UInt64) (m : ObjectMeta) : Except Errno ObjectMeta :=
  let m := { m with objId := cleanObjectKey m.objId }
  if m.pgId ≠ calculateObjectPGID ring a term m.objId then .error .pgNotMatch else .ok m

def proposeObjectMetaOperate (r : Register) (pgID : UInt64) (o : MetaOperate) :
    Except Errno Register :=
  match r[pgID]? with
  | none => .error .raftNodeNotFound
  | some storage => .ok (r.insert pgID (storage.operate o))

def recordObjectMeta (r : Register) (current clientTerm : UInt64) (m : ObjectMeta) :
    Except Errno Register := do
  let term ← checkClientTerm current clientTerm
  let m ← checkObject ring a term m
  proposeObjectMetaOperate r m.pgId { operate := .PUT, objectMeta := m }

def getObjectMeta (r : Register) (current clientTerm : UInt64) (objID : Bytes) :
    Except Errno ObjectMeta := do
  let term ← checkClientTerm current clientTerm
  let objID := cleanObjectKey objID
  match r[calculateObjectPGID ring a term objID]? with
  | none => .error .metaStorageNotExist
  | some storage => storage.getMeta objID

/-- The proposal of `DeleteMeta`, once it has looked the meta up. -/
def deleteMeta (r : Register) (objMeta : ObjectMeta) : Except Errno Register :=
  proposeObjectMetaOperate r objMeta.pgId { operate := .DELETE, objectMeta := objMeta }

/-- `ListMeta` over all storages of a node. The request's prefix is cleaned again for each. -/
def listMeta (r : Register) (pre : Bytes) : List ObjectMeta :=
  (r.toList.foldl (fun st e =>
    (cleanObjectKey st.1, st.2 ++ e.2.list (cleanObjectKey st.1))) (pre, [])).2

theorem foldl_listMeta {q : Bytes} (hq : cleanObjectKey q = q)
    (l : List (UInt64 × MemoryMetaStorage)) {pre : Bytes} (hpre : cleanObjectKey pre = q)
    (metas : List ObjectMeta) :
    (l.foldl (fun st e => (cleanObjectKey st.1, st.2 ++ e.2.list (cleanObjectKey st.1)))
      (pre, metas)).2 = metas ++ l.flatMap fun e => e.2.list q := by
  induction l generalizing pre metas with
  | nil => simp
  | cons e l ih =>
    rw [List.foldl_cons, hpre, ih hq, List.flatMap_cons, List.append_assoc]

/-- Cleaning once more changes nothing, so every storage sees the same prefix. -/
theorem listMeta_eq {pre : Bytes} (h : cleanObjectKey (cleanObjectKey pre) = cleanObjectKey pre)
    (r : Register) : listMeta r pre = r.toList.flatMap fun e => e.2.list (cleanObjectKey pre) := by
  rw [listMeta, foldl_listMeta h r.toList rfl, List.nil_append]

def recorded (r : Register) : List (UInt64 × Bytes × ObjectMeta) :=
  r.toList.flatMap fun e => e.2.metaMap.toList.map fun x => (e.1, x.1, x.2)

theorem mem_recorded {r : Register} {pg : UInt64} {k : Bytes} {m : ObjectMeta} :
    (pg, k, m) ∈ recorded r ↔ ∃ storage, r[pg]? = some storage ∧ storage.metaMap[k]? = some m := by
  simp only [recorded, List.mem_flatMap, List.mem_map, Prod.exists, Prod.mk.injEq,
    ExtTreeMap.mem_toList_iff_getElem?_eq_some]
  constructor
  · rintro ⟨pg', storage, hs, k', m', hm, rfl, rfl, rfl⟩
    exact ⟨storage, hs, hm⟩
  · rintro ⟨storage, hs, hm⟩
    exact ⟨pg, storage, hs, k, m, hm, rfl, rfl, rfl⟩

theorem getMeta_eq_ok {storage : MemoryMetaStorage} {objID : Bytes} {m : ObjectMeta}
    (h : storage.getMeta objID = .ok m) : storage.metaMap[objID]? = some m := by
  unfold MemoryMetaStorage.getMeta at h
  split at h
  · rename_i m' hm
    cases h
    exact hm
  · cases h

theorem recorded_of_getObjectMeta {r : Register} {current clientTerm : UInt64} {objID : Bytes}
    {m : ObjectMeta} (h : getObjectMeta ring a r current clientTerm objID = .ok m) :
    ∃ e ∈ recorded r, e.2.2 = m := by
  obtain ⟨term, -, h⟩ := bind_eq_ok h
  dsimp only at h
  split at h
  · cases h
  · rename_i storage hs
    exact ⟨(_, _, m), mem_recorded.mpr ⟨storage, hs, getMeta_eq_ok h⟩, rfl⟩

variable {ring a}

/-- What an operation does to the storages. -/
theorem propose_eq_ok {r r' : Register} {pgID : UInt64} {o : MetaOperate}
    (h : proposeObjectMetaOperate r pgID o = .ok r') :
    ∃ storage, r[pgID]? = some storage ∧ r' = r.insert pgID (storage.operate o) := by
  unfold proposeObjectMetaOperate at h
  cases hs : r[pgID]? with
  | none =>
    rw [hs] at h
    cases h
  | some storage =>
    rw [hs] at h
    cases h
    exact ⟨storage, rfl, rfl⟩

/-- An operation touches one storage. -/
theorem recorded_propose {r r' : Register} {pgID : UInt64} {o : MetaOperate}
    (h : proposeObjectMetaOperate r pgID o = .ok r') {pg : UInt64} {k : Bytes} {m : ObjectMeta}
    (hm : (pg, k, m) ∈ recorded r') :
    (pg ≠ pgID ∧ (pg, k, m) ∈ recorded r) ∨ (pg = pgID ∧ ∃ storage, r[pg]? = some storage ∧
      (storage.operate o).metaMap[k]? = some m) := by
  obtain ⟨storage, hs, rfl⟩ := propose_eq_ok h
  obtain ⟨storage', hs', hm'⟩ := mem_recorded.mp hm
  rw [ExtTreeMap.getElem?_insert] at hs'
  simp only [LawfulEqCmp.compare_eq_iff_eq] at hs'
  split_ifs at hs' with heq
  · cases hs'
    exact .inr ⟨heq.symm, storage, heq ▸ hs, hm'⟩
  · exact .inl ⟨Ne.symm heq, mem_recorded.mpr ⟨storage', hs', hm'⟩⟩

/-- An operation leaves the metas under other keys as they are. -/
theorem recorded_propose_of_ne {r r' : Register} {pgID : UInt64} {o : MetaOperate}
    (h : proposeObjectMetaOperate r pgID o = .ok r') {e : UInt64 × Bytes × ObjectMeta}
    (he : e ∈ recorded r) (hne : (e.1, e.2.1) ≠ (pgID, o.objectMeta.objId)) :
    e ∈ recorded r' := by
  obtain ⟨pg, k, m⟩ := e
  obtain ⟨storage, hs, hm⟩ := mem_recorded.mp he
  obtain ⟨storage', hpg, rfl⟩ := propose_eq_ok h
  rw [mem_recorded]
  by_cases heq : pgID = pg
  · rw [heq, hs] at hpg
    cases hpg
    have hk : o.objectMeta.objId ≠ k := by
      rintro rfl
      exact hne (by rw [heq])
    refine ⟨storage.operate o, by rw [heq, ExtTreeMap.getElem?_insert_self], ?_⟩
    unfold MemoryMetaStorage.operate
    split <;> simpa [MemoryMetaStorage.recordMeta, MemoryMetaStorage.delete,
      ExtTreeMap.getElem?_insert, ExtTreeMap.getElem?_erase, hk] using hm
  · refine ⟨storage, ?_, hm⟩
    rw [ExtTreeMap.getElem?_insert]
    simpa [heq] using hs

theorem recorded_put_self {r r' : Register} {pgID : UInt64} {new : ObjectMeta}
    (h : proposeObjectMetaOperate r pgID { operate := .PUT, objectMeta := new } = .ok r') :
    (pgID, new.objId, new) ∈ recorded r' := by
  obtain ⟨storage, -, rfl⟩ := propose_eq_ok h
  rw [mem_recorded]
  refine ⟨_, ExtTreeMap.getElem?_insert_self, ?_⟩
  simp [MemoryMetaStorage.operate, MemoryMetaStorage.recordMeta]

theorem recorded_put_cases {r r' : Register} {pgID : UInt64} {new : ObjectMeta}
    (h : proposeObjectMetaOperate r pgID { operate := .PUT, objectMeta := new } = .ok r')
    {pg : UInt64} {k : Bytes} {m : ObjectMeta} (hm : (pg, k, m) ∈ recorded r') :
    (pg = pgID ∧ k = new.objId ∧ m = new) ∨ (pg, k, m) ∈ recorded r := by
  rcases recorded_propose h hm with ⟨-, hold⟩ | ⟨hpg, storage, hs, hm'⟩
  · exact .inr hold
  · simp only [MemoryMetaStorage.operate, MemoryMetaStorage.recordMeta] at hm'
    rw [ExtTreeMap.getElem?_insert] at hm'
    simp only [LawfulEqCmp.compare_eq_iff_eq] at hm'
    split_ifs at hm' with hk
    · cases hm'
      exact .inl ⟨hpg, hk.symm, rfl⟩
    · exact .inr (mem_recorded.mpr ⟨storage, hs, hm'⟩)

theorem recorded_put {r r' : Register} {pgID : UInt64} {new : ObjectMeta}
    (h : proposeObjectMetaOperate r pgID { operate := .PUT, objectMeta := new } = .ok r')
    {pg : UInt64} {k : Bytes} {m : ObjectMeta} (hm : (pg, k, m) ∈ recorded r') :
    m = new ∨ (pg, k, m) ∈ recorded r := by
  rcases recorded_put_cases h hm with ⟨-, -, hnew⟩ | hold
  · exact .inl hnew
  · exact .inr hold

/-- An operation makes no storage. -/
theorem isSome_propose {r r' : Register} {pgID : UInt64} {o : MetaOperate}
    (h : proposeObjectMetaOperate r pgID o = .ok r') (pg : UInt64) :
    r'[pg]?.isSome = r[pg]?.isSome := by
  obtain ⟨storage, hs, rfl⟩ := propose_eq_ok h
  rw [ExtTreeMap.getElem?_insert]
  simp only [LawfulEqCmp.compare_eq_iff_eq]
  split_ifs with heq
  · rw [← heq, hs]
    rfl
  · rfl

/-- What a recorded meta comes to: its ID is cleaned. -/
theorem recordObjectMeta_eq_ok {r r' : Register} {current clientTerm : UInt64} {new : ObjectMeta}
    (h : recordObjectMeta ring a r current clientTerm new = .ok r') :
    proposeObjectMetaOperate r new.pgId
      { operate := .PUT, objectMeta := { new with objId := cleanObjectKey new.objId } } =
        .ok r' := by
  obtain ⟨term, -, h⟩ := bind_eq_ok h
  obtain ⟨checked, hcheck, h⟩ := bind_eq_ok h
  unfold checkObject at hcheck
  dsimp only at hcheck
  split_ifs at hcheck
  cases hcheck
  exact h

theorem recorded_recordObjectMeta {r r' : Register} {current clientTerm : UInt64} {new : ObjectMeta}
    (h : recordObjectMeta ring a r current clientTerm new = .ok r') {pg : UInt64} {k : Bytes}
    {m : ObjectMeta} (hm : (pg, k, m) ∈ recorded r') :
    m.blocks = new.blocks ∨ (pg, k, m) ∈ recorded r := by
  rcases recorded_put (recordObjectMeta_eq_ok h) hm with rfl | hold
  · exact .inl rfl
  · exact .inr hold

/-- A deletion removes the meta under its key, and no other. -/
theorem recorded_deleteMeta {r r' : Register} {old : ObjectMeta} (h : deleteMeta r old = .ok r')
    {pg : UInt64} {k : Bytes} {m : ObjectMeta} (hm : (pg, k, m) ∈ recorded r') :
    (pg, k) ≠ (old.pgId, old.objId) ∧ (pg, k, m) ∈ recorded r := by
  rcases recorded_propose h hm with ⟨hne, hold⟩ | ⟨-, storage, hs, hm'⟩
  · exact ⟨fun heq => hne (Prod.mk.inj heq).1, hold⟩
  · simp only [MemoryMetaStorage.operate, MemoryMetaStorage.delete] at hm'
    rw [ExtTreeMap.getElem?_erase] at hm'
    simp only [LawfulEqCmp.compare_eq_iff_eq] at hm'
    split_ifs at hm' with hk
    exact ⟨fun heq => hk (Prod.mk.inj heq).2.symm, mem_recorded.mpr ⟨storage, hs, hm'⟩⟩

end Ecos.Alaya
