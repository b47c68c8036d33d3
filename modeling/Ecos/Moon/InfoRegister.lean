import Ecos.Moon.InfoSnapshot

namespace Ecos.Moon
open Go Logic Std StorageRegister

/-- An entry has an effect on its own type, and puts only its own info there. -/
theorem ProposeInfoRequest.op_eq_some {msg : ProposeInfoRequest}
    {op : Op (InfoType × Bytes) BaseInfo} (h : msg.op = some op) :
    msg.baseInfo.getInfoType ∈ registeredTypes ∧ op.key.1 = msg.baseInfo.getInfoType ∧
      ∀ info, op.value = some info → info = msg.baseInfo := by
  unfold ProposeInfoRequest.op at h
  split_ifs at h with hreg
  refine ⟨hreg, ?_⟩
  cases ho : msg.operate with
  | ADD | UPDATE =>
    rw [ho] at h
    cases h
    exact ⟨rfl, fun info hinfo => (Option.some.inj hinfo).symm⟩
  | DELETE =>
    rw [ho] at h
    cases h
    exact ⟨rfl, nofun⟩

structure InfoRegister (R : Type) where
  registerAllStorage : R
  /-- one entry in `readCommits` -/
  operate : R → ProposeInfoRequest → R
  get : R → InfoType → Bytes → Except Errno BaseInfo
  /-- `RecoverFromSnapshot` from what `GetSnapshot` gave for the second register -/
  recover : R → R → Option R
  look : R → InfoType × Bytes → Option BaseInfo
  Valid : R → Prop
  valid_registerAllStorage : Valid registerAllStorage
  look_registerAllStorage : look registerAllStorage = fun _ => none
  valid_operate : ∀ {r}, Valid r → ∀ msg, Valid (operate r msg)
  look_operate : ∀ {r}, Valid r → ∀ msg, look (operate r msg) = replay (look r) msg.op.toList
  look_recover : ∀ {r source}, Valid r → Valid source → ∃ r', recover r source = some r' ∧ Valid r' ∧
    ∀ k, look r' k = look r k ∨ look source k ≠ none ∧ look r' k = look source k
  get_eq_ok_iff : ∀ {r}, Valid r → ∀ {t}, t ∈ registeredTypes → ∀ id info,
    get r t id = .ok info ↔ look r (t, id) = some info

def memoryRegister : InfoRegister StorageRegister where
  registerAllStorage := .registerAllStorage
  operate := StorageRegister.operate
  get := StorageRegister.get
  recover r source := some (r.recoverFromSnapshot source.getSnapshot)
  look := StorageRegister.lookup
  Valid := StorageRegister.WellFormed
  valid_registerAllStorage := wellFormed_registerAllStorage
  look_registerAllStorage := StorageRegister.lookup_registerAllStorage
  valid_operate := wellFormed_operate
  look_operate := StorageRegister.lookup_operate
  look_recover hr _ := ⟨_, rfl, hr, fun _ => .inl rfl⟩
  get_eq_ok_iff := by
    intro r hr t ht id info
    obtain ⟨s, hs⟩ := hr.exists_storage ht
    simp only [StorageRegister.get, StorageRegister.lookup, hs, Option.bind_some,
      MemoryInfoStorage.get]
    cases s.kvStorage[id]? <;> simp

namespace RocksDBStorageRegister
variable (codec : Codec BaseInfo Bytes)

def look (r : RocksDBStorageRegister) (k : InfoType × Bytes) : Option BaseInfo :=
  (r.lookup k).bind codec.unmarshal

structure Valid (r : RocksDBStorageRegister) : Prop where
  wellFormed : r.WellFormed
  readable : ∀ k data, r.lookup k = some data → ∃ info, data = codec.marshal info

variable {codec} {r source : RocksDBStorageRegister}

theorem WellFormed.lookup_eq_none (hr : r.WellFormed) {k : InfoType × Bytes}
    (hk : k.1 ∉ registeredTypes) : r.lookup k = none := by
  rw [lookup, Option.not_isSome_iff_eq_none.mp fun h => hk ((hr k.1).mp h)]
  rfl

theorem look_operate (hr : r.WellFormed) (msg : ProposeInfoRequest) :
    (r.operate codec.marshal msg).look codec = replay (r.look codec) msg.op.toList := by
  funext k
  obtain ⟨t, id⟩ := k
  by_cases ht : t ∈ registeredTypes
  · rw [look, hr.lookup_operate codec.marshal msg ht, ProposeInfoRequest.op]
    by_cases htype : msg.baseInfo.getInfoType = t
    · subst htype
      rw [if_pos rfl, if_pos ht, RocksDBInfoStorage.op]
      cases msg.operate <;>
      · simp only [Option.toList_some, replay_cons, replay_nil, applyOp, Function.update_apply,
          Op.key, Op.value, Prod.mk.injEq, true_and]
        split_ifs
        · first | exact codec.unmarshal_marshal _ | rfl
        · rfl
    · rw [if_neg htype]
      have hkey : ∀ j, (t, id) ≠ (msg.baseInfo.getInfoType, j) :=
        fun j h => htype (congrArg Prod.fst h).symm
      split_ifs
      · cases msg.operate <;>
          simp only [Option.toList_some, replay_cons, replay_nil, applyOp, Op.key,
            Function.update_of_ne (hkey _), look]
      · rfl
  · have hop : ¬ Touched msg.op.toList (t, id) := by
      rintro ⟨op, hop, hkey⟩
      obtain ⟨hreg, htype, -⟩ := ProposeInfoRequest.op_eq_some (Option.mem_toList.mp hop)
      rw [← htype, hkey] at hreg
      exact ht hreg
    rw [replay_of_not_touched hop, look, look, hr.lookup_eq_none ht,
      (hr.operate codec.marshal msg).lookup_eq_none ht]

theorem Valid.operate (hr : r.Valid codec) (msg : ProposeInfoRequest) :
    (r.operate codec.marshal msg).Valid codec where
  wellFormed := hr.wellFormed.operate codec.marshal msg
  readable := by
    rintro ⟨t, id⟩ data hdata
    by_cases ht : t ∈ registeredTypes
    · rw [hr.wellFormed.lookup_operate codec.marshal msg ht] at hdata
      split_ifs at hdata
      · rw [applyOp, Function.update_apply] at hdata
        split_ifs at hdata
        · rw [RocksDBInfoStorage.op] at hdata
          cases ho : msg.operate <;> rw [ho] at hdata <;> cases hdata <;> exact ⟨_, rfl⟩
        · exact hr.readable _ _ hdata
      · exact hr.readable _ _ hdata
    · rw [(hr.wellFormed.operate codec.marshal msg).lookup_eq_none ht] at hdata
      cases hdata

theorem Valid.recover (hr : r.Valid codec) (hsource : source.Valid codec) :
    ∃ r', r.recoverFromSnapshot source.getSnapshot = some r' ∧ r'.Valid codec ∧
      ∀ k, r'.look codec k = r.look codec k ∨
        source.look codec k ≠ none ∧ r'.look codec k = source.look codec k := by
  obtain ⟨r', hrecover, hr', hlook⟩ := hr.wellFormed.recoverFromSnapshot hsource.wellFormed
  refine ⟨r', hrecover, ⟨hr', fun k data hdata => ?_⟩, fun k => ?_⟩
  · rw [hlook, overlay, Option.or_eq_some_iff] at hdata
    rcases hdata with hdata | ⟨-, hdata⟩
    · exact hsource.readable k data hdata
    · exact hr.readable k data hdata
  · rw [look, look, look, hlook, overlay]
    cases hdata : source.lookup k with
    | none => exact .inl rfl
    | some data =>
      obtain ⟨info, rfl⟩ := hsource.readable k data hdata
      refine .inr ⟨?_, rfl⟩
      rw [Option.bind_some, codec.unmarshal_marshal]
      exact Option.some_ne_none info

theorem Valid.get_eq_ok_iff (hr : r.Valid codec) {t : InfoType} (ht : t ∈ registeredTypes)
    (id : Bytes) (info : BaseInfo) :
    r.get codec.unmarshal t id = .ok info ↔ r.look codec (t, id) = some info := by
  obtain ⟨s, hs⟩ := hr.wellFormed.exists_storage ht
  simp only [get, hs, look, RocksDBInfoStorage.get]
  cases hdata : r.lookup (t, id) with
  | none =>
    rw [lookup, hs, Option.bind_some] at hdata
    simp [hdata]
  | some data =>
    obtain ⟨info', rfl⟩ := hr.readable _ _ hdata
    rw [lookup, hs, Option.bind_some] at hdata
    simp [hdata, codec.unmarshal_marshal]

end RocksDBStorageRegister

def rocksDBRegister (codec : Codec BaseInfo Bytes) : InfoRegister RocksDBStorageRegister where
  registerAllStorage := .registerAllStorage
  operate := RocksDBStorageRegister.operate codec.marshal
  get := RocksDBStorageRegister.get codec.unmarshal
  recover r source := r.recoverFromSnapshot source.getSnapshot
  look := RocksDBStorageRegister.look codec
  Valid := RocksDBStorageRegister.Valid codec
  valid_registerAllStorage := by
    refine ⟨RocksDBStorageRegister.wellFormed_registerAllStorage, fun k data hdata => ?_⟩
    rw [RocksDBStorageRegister.lookup_registerAllStorage] at hdata
    cases hdata
  look_registerAllStorage := by
    funext k
    rw [RocksDBStorageRegister.look, RocksDBStorageRegister.lookup_registerAllStorage]
    rfl
  valid_operate := RocksDBStorageRegister.Valid.operate
  look_operate hr := RocksDBStorageRegister.look_operate hr.wellFormed
  look_recover := RocksDBStorageRegister.Valid.recover
  get_eq_ok_iff hr _ ht := hr.get_eq_ok_iff ht

end Ecos.Moon
