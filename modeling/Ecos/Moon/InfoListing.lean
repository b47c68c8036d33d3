import Ecos.Moon.RocksDBInfoStorage

namespace Ecos.Moon
open Go Logic Std

/-- A call of `Update` or `Delete`. -/
inductive StorageCall where
  | update (info : Information)
  | delete (id : Bytes)
  deriving DecidableEq, Repr

def StorageCall.op : StorageCall → Op Bytes BaseInfo
  | update info => .put info.getID info.base
  | delete id => .delete id

def currentInfos (calls : List StorageCall) : Bytes → Option BaseInfo :=
  replay (fun _ => none) (calls.map StorageCall.op)

namespace MemoryInfoStorage

def call (s : MemoryInfoStorage) : StorageCall → MemoryInfoStorage
  | .update info => s.updateInfo info
  | .delete id => s.delete id

def callAll (calls : List StorageCall) : MemoryInfoStorage := calls.foldl call empty

theorem lookup_call (s : MemoryInfoStorage) (c : StorageCall) :
    (fun k => (s.call c).kvStorage[k]?) = applyOp (fun k => s.kvStorage[k]?) c.op := by
  cases c with
  | update info => exact ByteMap.getElem?_insert s.kvStorage _ _
  | delete id => exact ByteMap.getElem?_erase s.kvStorage _

def followsCalls : Follows call StorageCall.op where
  look s k := s.kvStorage[k]?
  look_injective s t h := by
    have hkv : s.kvStorage = t.kvStorage := ExtTreeMap.ext_getElem? fun k => congrFun h k
    cases s
    cases t
    exact congrArg _ hkv
  look_step := lookup_call

theorem lookup_callAll (calls : List StorageCall) :
    (fun k => (callAll calls).kvStorage[k]?) = currentInfos calls := by
  have hempty : followsCalls.look empty = fun _ => none := by
    funext k
    exact ExtTreeMap.getElem?_empty
  rw [currentInfos, ← hempty]
  exact followsCalls.look_foldl empty calls

theorem mem_callAll {calls : List StorageCall} {k : Bytes} {info : BaseInfo} :
    (k, info) ∈ (callAll calls).kvStorage.toList ↔ currentInfos calls k = some info := by
  rw [ExtTreeMap.mem_toList_iff_getElem?_eq_some, ← lookup_callAll]

/-- Every info is there because of an update. -/
theorem update_mem_of_callAll {calls : List StorageCall} {k : Bytes} {info : BaseInfo}
    (h : (callAll calls).kvStorage[k]? = some info) :
    ∃ i : Information, .update i ∈ calls ∧ i.base = info := by
  have hcur : currentInfos calls k = some info := (congrFun (lookup_callAll calls) k).symm.trans h
  rcases put_mem_of_replay hcur with hmem | hnone
  · obtain ⟨c, hc, hop⟩ := List.mem_map.mp hmem
    cases c with
    | update i =>
      rw [StorageCall.op, Op.put.injEq] at hop
      exact ⟨i, hc, hop.2⟩
    | delete id => cases hop
  · cases hnone

variable {key : Bytes} {entries : List (Bytes × BaseInfo)}

theorem visit_of_le {e : Bytes × BaseInfo} (infos : List BaseInfo) (h : key.length ≤ e.1.length) :
    visit key infos e = some (infos ++ ([e].filter fun e => key.isPrefixOf e.1).map Prod.snd) := by
  rw [visit, slice, if_pos h]
  by_cases hk : e.1.take key.length = key
  · have hext : key.isPrefixOf e.1 = true :=
      List.isPrefixOf_iff_prefix.mpr (List.prefix_iff_eq_take.mpr hk.symm)
    simp [hk, hext]
  · have hext : ¬ key.isPrefixOf e.1 = true :=
      fun h => hk (List.prefix_iff_eq_take.mp (List.isPrefixOf_iff_prefix.mp h)).symm
    simp [hk, hext]

theorem visit_of_lt {e : Bytes × BaseInfo} (infos : List BaseInfo) (h : e.1.length < key.length) :
    visit key infos e = none := by
  rw [visit, slice, if_neg (Nat.not_le.mpr h)]
  rfl

theorem foldlM_visit (infos : List BaseInfo) (h : ∀ e ∈ entries, key.length ≤ e.1.length) :
    entries.foldlM (visit key) infos =
      some (infos ++ (entries.filter fun e => key.isPrefixOf e.1).map Prod.snd) := by
  induction entries generalizing infos with
  | nil => simp
  | cons e entries ih =>
    have hrest := ih (infos ++ ([e].filter fun e => key.isPrefixOf e.1).map Prod.snd)
      fun x hx => h x (List.mem_cons_of_mem e hx)
    have hsplit : (e :: entries).filter (fun e => key.isPrefixOf e.1) =
        [e].filter (fun e => key.isPrefixOf e.1) ++ entries.filter fun e => key.isPrefixOf e.1 := by
      rw [← List.filter_append, List.singleton_append]
    rw [List.foldlM_cons, visit_of_le infos (h e List.mem_cons_self)]
    show List.foldlM (visit key) _ entries = _
    rw [hrest, hsplit, List.map_append, List.append_assoc]

/-- One key that is too short is enough, wherever it is visited. -/
theorem foldlM_visit_eq_none {e : Bytes × BaseInfo} (infos : List BaseInfo) (he : e ∈ entries)
    (h : e.1.length < key.length) : entries.foldlM (visit key) infos = none := by
  induction entries generalizing infos with
  | nil => cases he
  | cons x entries ih =>
    rw [List.foldlM_cons]
    rcases List.mem_cons.mp he with rfl | he
    · rw [visit_of_lt infos h]
      rfl
    · cases visit key infos x with
      | none => rfl
      | some infos' => exact ih infos' he

end MemoryInfoStorage

namespace RocksDBInfoStorage
variable (marshal : BaseInfo → Bytes)

/-- `Update` with any info. -/
def updateInfo (s : RocksDBInfoStorage) (info : Information) : RocksDBInfoStorage :=
  ⟨s.cf.insert info.getID (marshal info.base)⟩

def call (s : RocksDBInfoStorage) : StorageCall → RocksDBInfoStorage
  | .update info => s.updateInfo marshal info
  | .delete id => s.delete id

def callAll (calls : List StorageCall) : RocksDBInfoStorage := calls.foldl (call marshal) empty

/-- The column family holds the infos of the memory storage, marshalled. -/
def Holds (s : RocksDBInfoStorage) (m : MemoryInfoStorage) : Prop :=
  s.cf = m.kvStorage.map fun _ info => marshal info

variable {marshal}

theorem Holds.call {s : RocksDBInfoStorage} {m : MemoryInfoStorage} (h : s.Holds marshal m)
    (c : StorageCall) : (s.call marshal c).Holds marshal (m.call c) := by
  apply ExtTreeMap.ext_getElem?
  intro k
  have hk : s.cf[k]? = m.kvStorage[k]?.map fun info => marshal info := by
    rw [h, ExtTreeMap.getElem?_map]
  cases c with
  | update info =>
    simp only [RocksDBInfoStorage.call, updateInfo, MemoryInfoStorage.call,
      MemoryInfoStorage.updateInfo, ExtTreeMap.getElem?_map, ExtTreeMap.getElem?_insert, hk]
    split <;> rfl
  | delete id =>
    simp only [RocksDBInfoStorage.call, delete, MemoryInfoStorage.call, MemoryInfoStorage.delete,
      ExtTreeMap.getElem?_map, ExtTreeMap.getElem?_erase, hk]
    split <;> rfl

/-- The two storages stay in step. -/
theorem holds_callAll (calls : List StorageCall) :
    (callAll marshal calls).Holds marshal (MemoryInfoStorage.callAll calls) := by
  have hrun : ∀ (s : RocksDBInfoStorage) (m : MemoryInfoStorage), s.Holds marshal m →
      (calls.foldl (call marshal) s).Holds marshal (calls.foldl MemoryInfoStorage.call m) := by
    induction calls with
    | nil => exact fun _ _ h => h
    | cons c calls ih => exact fun s m h => ih _ _ (h.call c)
  refine hrun empty .empty ?_
  apply ExtTreeMap.ext_getElem?
  intro k
  rw [ExtTreeMap.getElem?_map]
  exact (ExtTreeMap.getElem?_empty).trans (congrArg (Option.map _) ExtTreeMap.getElem?_empty).symm

/-- `List` gives the matching infos in key order. -/
theorem Holds.list_eq {s : RocksDBInfoStorage} {m : MemoryInfoStorage} (h : s.Holds marshal m)
    {unmarshal : Bytes → Option BaseInfo}
    (hinv : ∀ (k : Bytes) (info : BaseInfo), m.kvStorage[k]? = some info →
      unmarshal (marshal info) = some info) (key : Bytes) :
    s.list unmarshal key =
      .ok ((m.kvStorage.toList.filter fun e => key.isPrefixOf e.1).map Prod.snd) := by
  have hscan : scan s.cf key = (m.kvStorage.toList.filter fun e => key.isPrefixOf e.1).map
      fun e => (e.1, marshal e.2) := by
    rw [scan_eq_filter, h, ExtTreeMap.toList_map, List.filter_map]
    rfl
  have hback : ∀ e ∈ m.kvStorage.toList.filter fun e => key.isPrefixOf e.1,
      unmarshal (marshal e.2) = some e.2 := by
    intro e he
    have hmem := List.mem_of_mem_filter he
    exact hinv e.1 e.2 (ExtTreeMap.mem_toList_iff_getElem?_eq_some.mp hmem)
  have hread : ∀ e ∈ scan s.cf key, (unmarshal e.2).isSome := by
    intro e he
    rw [hscan] at he
    obtain ⟨x, hx, rfl⟩ := List.mem_map.mp he
    rw [hback x hx]
    rfl
  rw [list, mapM_read hread, hscan, List.filterMap_map, ← List.filterMap_eq_map]
  exact congrArg _ (List.filterMap_congr hback)

end RocksDBInfoStorage

/-- After the same calls the RocksDB storage lists exactly the current infos whose IDs extend the
given string. The memory storage lists the same ones or panics, and it panics exactly where a
current ID is shorter than the string. -/
theorem list_agrees_iff (marshal : BaseInfo → Bytes) (unmarshal : Bytes → Option BaseInfo)
    (calls : List StorageCall)
    (hinv : ∀ i : Information, .update i ∈ calls → unmarshal (marshal i.base) = some i.base)
    (key : Bytes) (entries : List (Bytes × BaseInfo))
    (hentries : entries.Perm (MemoryInfoStorage.callAll calls).kvStorage.toList) :
    ∃ infos, (RocksDBInfoStorage.callAll marshal calls).list unmarshal key = .ok infos ∧
      (∀ info, info ∈ infos ↔ ∃ id, currentInfos calls id = some info ∧ key <+: id) ∧
      (∀ infos', MemoryInfoStorage.list entries key = some infos' → infos'.Perm infos) ∧
      ((∃ infos', MemoryInfoStorage.list entries key = some infos') ↔
        ∀ id info, currentInfos calls id = some info → key.length ≤ id.length) := by
  have hread : ∀ (k : Bytes) (info : BaseInfo),
      (MemoryInfoStorage.callAll calls).kvStorage[k]? = some info →
        unmarshal (marshal info) = some info := by
    intro k info h
    obtain ⟨i, hi, rfl⟩ := MemoryInfoStorage.update_mem_of_callAll h
    exact hinv i hi
  have hpanic : ∀ id info, currentInfos calls id = some info → id.length < key.length →
      MemoryInfoStorage.list entries key = none := by
    intro id info hid hlt
    have hmem := hentries.symm.subset (MemoryInfoStorage.mem_callAll.mpr hid)
    exact MemoryInfoStorage.foldlM_visit_eq_none [] hmem hlt
  have hlist : (∀ id info, currentInfos calls id = some info → key.length ≤ id.length) →
      MemoryInfoStorage.list entries key =
        some ((entries.filter fun e => key.isPrefixOf e.1).map Prod.snd) := by
    intro h
    refine MemoryInfoStorage.foldlM_visit [] fun e he => ?_
    exact h e.1 e.2 (MemoryInfoStorage.mem_callAll.mp (hentries.subset he))
  have hlong : (∃ infos', MemoryInfoStorage.list entries key = some infos') →
      ∀ id info, currentInfos calls id = some info → key.length ≤ id.length := by
    rintro ⟨infos', h⟩ id info hid
    by_contra hlt
    rw [hpanic id info hid (Nat.not_le.mp hlt)] at h
    cases h
  refine ⟨_, (RocksDBInfoStorage.holds_callAll calls).list_eq hread key, fun info => ?_,
    fun infos' h => ?_, hlong, fun h => ⟨_, hlist h⟩⟩
  · simp only [List.mem_map, List.mem_filter, Prod.exists, exists_eq_right,
      MemoryInfoStorage.mem_callAll, List.isPrefixOf_iff_prefix]
  · rw [hlist (hlong ⟨infos', h⟩)] at h
    cases h
    exact (hentries.filter _).map Prod.snd

def nodeOf (raftId : UInt64) : NodeInfo := ⟨raftId, [], [], 0, 10, .ONLINE⟩

def sampleCalls : List StorageCall :=
  [.update (.nodeInfo (nodeOf 1)), .update (.nodeInfo (nodeOf 2)),
    .update (.nodeInfo (nodeOf 12)), .delete [50]]

def unmarshalSample (data : Bytes) : Option BaseInfo :=
  (parseDigits data).map fun n => .nodeInfo (nodeOf (UInt64.ofNat n))

theorem unmarshalSample_getID (i : Information) (hi : .update i ∈ sampleCalls) :
    unmarshalSample i.base.getID = some i.base := by
  simp only [sampleCalls, List.mem_cons, StorageCall.update.injEq, List.not_mem_nil, reduceCtorEq,
    or_false] at hi
  rcases hi with rfl | rfl | rfl <;> decide +kernel

/-- Both list nodes 1 and 12 for the string `1`. -/
theorem list_agrees_sample :
    (∃ infos, (RocksDBInfoStorage.callAll BaseInfo.getID sampleCalls).list unmarshalSample [49] =
        .ok infos ∧ ∀ info, info ∈ infos ↔
          ∃ id, currentInfos sampleCalls id = some info ∧ [49] <+: id) ∧
      MemoryInfoStorage.list (MemoryInfoStorage.callAll sampleCalls).kvStorage.toList [49] =
        some [.nodeInfo (nodeOf 1), .nodeInfo (nodeOf 12)] := by
  refine ⟨?_, by decide +kernel⟩
  obtain ⟨infos, hlist, hmem, -, -⟩ := list_agrees_iff BaseInfo.getID unmarshalSample sampleCalls
    unmarshalSample_getID [49] _ (List.Perm.refl _)
  exact ⟨infos, hlist, hmem⟩

/-- For the string `12` the memory storage panics at node 1, also where node 12 comes first. -/
theorem list_panics :
    (RocksDBInfoStorage.callAll BaseInfo.getID sampleCalls).list unmarshalSample [49, 50] =
        .ok [.nodeInfo (nodeOf 12)] ∧
      MemoryInfoStorage.list (MemoryInfoStorage.callAll sampleCalls).kvStorage.toList [49, 50] =
        none ∧
      MemoryInfoStorage.list (MemoryInfoStorage.callAll sampleCalls).kvStorage.toList.reverse
        [49, 50] = none := by
  decide +kernel

end Ecos.Moon
