import Ecos.Alaya.Recovery
import Ecos.Moon.RocksDBInfoStorage

namespace Ecos.Moon
open Go Logic Std Alaya StorageRegister

def InfoType.number : InfoType → ℕ
  | INVALID => 0
  | NODE_INFO => 1
  | BUCKET_INFO => 2
  | CLUSTER_INFO => 3
  | USER_INFO => 4
  | GROUP_INFO => 5
  | VOLUME_INFO => 6
  | ACCESS_INFO => 7

def infoTypeToStr (infoType : InfoType) : Bytes := formatNat infoType.number

def defaultCf : Bytes := ascii ['d', 'e', 'f', 'a', 'u', 'l', 't']

namespace RocksDBStorageRegister

def WellFormed (r : RocksDBStorageRegister) : Prop :=
  ∀ t, (r.storageMap t).isSome = true ↔ t ∈ registeredTypes

def lookup (r : RocksDBStorageRegister) (k : InfoType × Bytes) : Option Bytes :=
  (r.storageMap k.1).bind fun s => s.cf[k.2]?

/-- What `GetSnapshot` collects from the column family of a type. -/
def cfContent (t : InfoType) (s : RocksDBInfoStorage) : CfContent where
  cfName := infoTypeToStr t
  keys := s.cf.toList.map Prod.fst
  values := s.cf.toList.map Prod.snd

def getSnapshot (r : RocksDBStorageRegister) : List CfContent :=
  { cfName := defaultCf, keys := [], values := [] } ::
    registeredTypes.filterMap fun t => (r.storageMap t).map (cfContent t)

/-- One column family in `RecoverFromSnapshot`, which crashes where the name has no handle. -/
def recoverCf (r : RocksDBStorageRegister) (content : CfContent) : Option RocksDBStorageRegister :=
  if content.cfName = defaultCf then some r
  else do
    let t ← registeredTypes.find? fun t => infoTypeToStr t = content.cfName
    let s ← r.storageMap t
    let cf ← RocksDBMetaStorage.putAll s.cf content.keys content.values
    return ⟨Function.update r.storageMap t (some ⟨cf⟩)⟩

def recoverFromSnapshot (r : RocksDBStorageRegister) (contents : List CfContent) :
    Option RocksDBStorageRegister :=
  contents.foldlM recoverCf r

variable {r source : RocksDBStorageRegister}

theorem WellFormed.exists_storage (hr : r.WellFormed) {t : InfoType} (ht : t ∈ registeredTypes) :
    ∃ s, r.storageMap t = some s :=
  Option.isSome_iff_exists.mp ((hr t).mpr ht)

theorem wellFormed_registerAllStorage : registerAllStorage.WellFormed := by
  intro t
  simp only [registerAllStorage]
  split_ifs with h
  · exact iff_of_true rfl h
  · exact iff_of_false (by simp) h

theorem lookup_registerAllStorage : registerAllStorage.lookup = fun _ => none := by
  funext k
  simp only [lookup, registerAllStorage]
  split_ifs
  · exact ExtTreeMap.getElem?_empty
  · rfl

theorem WellFormed.operate (hr : r.WellFormed) (marshal : BaseInfo → Bytes)
    (msg : ProposeInfoRequest) : (r.operate marshal msg).WellFormed := by
  intro t
  rw [storageMap_operate, Option.isSome_map]
  exact hr t

theorem WellFormed.operateAll (hr : r.WellFormed) (marshal : BaseInfo → Bytes)
    (msgs : List ProposeInfoRequest) : (r.operateAll marshal msgs).WellFormed := by
  induction msgs generalizing r with
  | nil => exact hr
  | cons msg msgs ih => exact ih (hr.operate marshal msg)

/-- What an entry does to the entries of its type. -/
theorem WellFormed.lookup_operate (hr : r.WellFormed) (marshal : BaseInfo → Bytes)
    (msg : ProposeInfoRequest) {t : InfoType} (ht : t ∈ registeredTypes) (id : Bytes) :
    (r.operate marshal msg).lookup (t, id) =
      if msg.baseInfo.getInfoType = t then
        applyOp (fun k => r.lookup (t, k)) (RocksDBInfoStorage.op marshal msg) id
      else r.lookup (t, id) := by
  obtain ⟨s, hs⟩ := hr.exists_storage ht
  simp only [lookup, storageMap_operate, hs, Option.map_some, Option.bind_some]
  split_ifs with h
  · exact congrFun (RocksDBInfoStorage.lookup_operate marshal s msg) id
  · rfl

/-- The type of a column family is found by its name. -/
theorem find_infoTypeToStr : ∀ t ∈ registeredTypes, infoTypeToStr t ≠ defaultCf ∧
    registeredTypes.find? (fun t' => infoTypeToStr t' = infoTypeToStr t) = some t := by
  decide +kernel

/-- Recovering one column family lays the entries of the source over those of the type. -/
theorem WellFormed.recoverCf (hr : r.WellFormed) {t : InfoType} (ht : t ∈ registeredTypes)
    (s : RocksDBInfoStorage) :
    ∃ r', r.recoverCf (cfContent t s) = some r' ∧ r'.WellFormed ∧ ∀ k, r'.lookup k =
      if k.1 = t then (s.cf[k.2]?).or (r.lookup k) else r.lookup k := by
  obtain ⟨hname, hfind⟩ := find_infoTypeToStr t ht
  obtain ⟨s₀, hs₀⟩ := hr.exists_storage ht
  obtain ⟨cf, hput, hlook⟩ := RocksDBMetaStorage.putAll_map s₀.cf s.cf.toList
  have hname' : (cfContent t s).cfName = infoTypeToStr t := rfl
  refine ⟨⟨Function.update r.storageMap t (some ⟨cf⟩)⟩, ?_, fun t' => ?_, fun k => ?_⟩
  · rw [RocksDBStorageRegister.recoverCf, hname', if_neg hname, hfind]
    simp only [Option.bind_eq_bind, Option.bind_some, hs₀]
    rw [cfContent, hput]
    rfl
  · by_cases h : t' = t
    · subst h
      exact iff_of_true (by simp) ht
    · simp only [Function.update_of_ne h]
      exact hr t'
  · by_cases h : k.1 = t
    · have hk := congrFun (hlook.trans (RocksDBMetaStorage.replay_toList _ _)) k.2
      simp only [h, if_true, lookup, Function.update_self, hs₀, Option.bind_some]
      exact hk
    · rw [if_neg h]
      simp only [lookup, Function.update_of_ne h]

theorem WellFormed.foldlM_recoverCf (hr : r.WellFormed) (hsource : source.WellFormed)
    {ts : List InfoType} (hts : ∀ t ∈ ts, t ∈ registeredTypes) :
    ∃ r', (ts.filterMap fun t => (source.storageMap t).map (cfContent t)).foldlM
        RocksDBStorageRegister.recoverCf r = some r' ∧ r'.WellFormed ∧
      ∀ k, r'.lookup k = if k.1 ∈ ts then overlay source.lookup r.lookup k else r.lookup k := by
  induction ts generalizing r with
  | nil => exact ⟨r, rfl, hr, fun k => by simp⟩
  | cons t ts ih =>
    have ht := hts t List.mem_cons_self
    obtain ⟨s, hs⟩ := hsource.exists_storage ht
    obtain ⟨r₁, hstep, hr₁, hlook₁⟩ := hr.recoverCf ht s
    obtain ⟨r₂, hrun, hr₂, hlook₂⟩ := ih hr₁ fun t' ht' => hts t' (List.mem_cons_of_mem t ht')
    have hcons : (t :: ts).filterMap (fun t => (source.storageMap t).map (cfContent t)) =
        cfContent t s :: ts.filterMap fun t => (source.storageMap t).map (cfContent t) :=
      List.filterMap_cons_some (by rw [hs]; rfl)
    refine ⟨r₂, ?_, hr₂, fun k => ?_⟩
    · rw [hcons, List.foldlM_cons, hstep]
      exact hrun
    · have hself : k.1 = t → s.cf[k.2]? = source.lookup k := by
        intro h
        rw [lookup, h, hs]
        rfl
      -- laying the same entries over a second time changes nothing
      rw [hlook₂, overlay, hlook₁, overlay]
      by_cases h : k.1 = t
      · rw [if_pos h, hself h, if_pos (List.mem_cons.mpr (.inl h))]
        split_ifs
        · cases source.lookup k <;> rfl
        · rfl
      · rw [if_neg h]
        simp only [List.mem_cons, h, false_or]

/-- A recovery from the snapshot of another register lays its entries over what is there. -/
theorem WellFormed.recoverFromSnapshot (hr : r.WellFormed) (hsource : source.WellFormed) :
    ∃ r', r.recoverFromSnapshot source.getSnapshot = some r' ∧ r'.WellFormed ∧
      r'.lookup = overlay source.lookup r.lookup := by
  have hall : ∀ t ∈ registeredTypes, t ∈ registeredTypes := fun _ h => h
  obtain ⟨r', hrun, hr', hlook⟩ := hr.foldlM_recoverCf hsource hall
  have hfirst : r.recoverCf { cfName := defaultCf, keys := [], values := [] } = some r := if_pos rfl
  refine ⟨r', ?_, hr', funext fun k => ?_⟩
  · rw [RocksDBStorageRegister.recoverFromSnapshot, getSnapshot, List.foldlM_cons, hfirst]
    exact hrun
  · rw [hlook]
    split_ifs with hk
    · rfl
    · have hnone : ∀ x : RocksDBStorageRegister, x.WellFormed → x.lookup k = none := by
        intro x hx
        rw [lookup, Option.not_isSome_iff_eq_none.mp fun h => hk ((hx k.1).mp h)]
        rfl
      rw [overlay, hnone r hr, hnone source hsource]
      rfl

end RocksDBStorageRegister

end Ecos.Moon
