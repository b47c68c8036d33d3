import Ecos.Moon.RocksDBInfoStorage

namespace Ecos.Client
open Go Logic Std Moon

def getBucketInfo : BaseInfo → Option BucketInfo
  | .bucketInfo b => some b
  | _ => none

section Operator
variable (unmarshal : Bytes → Option BaseInfo) (r : RocksDBStorageRegister) (volumeID : Bytes)

namespace EdgeVolumeOperator

def get (key : Bytes) : Except Errno (Option BucketInfo) := do
  let info ← r.get unmarshal .BUCKET_INFO (genBucketID volumeID key)
  return getBucketInfo info

def list (key : Bytes) : Except Errno (List (Option BucketInfo)) := do
  let infos ← r.list unmarshal .BUCKET_INFO (genBucketID volumeID key)
  return infos.map getBucketInfo

def createBucket (bucketInfo : BucketInfo) : ProposeInfoRequest where
  operate := .ADD
  id := bucketInfo.getID
  baseInfo := .bucketInfo bucketInfo

def deleteBucket (bucketInfo : BucketInfo) : ProposeInfoRequest where
  operate := .DELETE
  id := bucketInfo.getID
  baseInfo := .bucketInfo bucketInfo

/-- `Remove`, whose bucket info has no config. -/
def remove (bucketName : Bytes) : ProposeInfoRequest :=
  deleteBucket ⟨volumeID, bucketName, [], { keySlotNum := 0, blockSize := 0 }⟩

end EdgeVolumeOperator

def Holds (b : BucketInfo) : Prop :=
  ∃ s data, r.storageMap .BUCKET_INFO = some s ∧ s.cf[b.getID]? = some data ∧
    unmarshal data = some (.bucketInfo b)

/-- With this argument the operator of a volume only touches buckets of that volume, and lists
them. -/
structure Isolated (marshal : BaseInfo → Bytes) (arg : Bytes) : Prop where
  listed : ∃ bs, EdgeVolumeOperator.list unmarshal r volumeID arg = .ok bs ∧
    (∀ b ∈ bs, b.map BucketInfo.volumeId = some volumeID) ∧
    (slash ∉ arg → ∀ b, Holds unmarshal r b → b.volumeId = volumeID → arg <+: b.bucketName →
      some b ∈ bs)
  got : ∀ b, EdgeVolumeOperator.get unmarshal r volumeID arg = .ok b →
    b.map BucketInfo.volumeId = some volumeID
  removed : ∀ b, Holds unmarshal r b →
    ¬ Holds unmarshal (r.operate marshal (EdgeVolumeOperator.remove volumeID arg)) b →
    b.volumeId = volumeID

def reached (arg : Bytes) : List Bytes :=
  Path.resolve dot true (pathElements volumeID ++ pathElements arg)

/-- The path of the argument begins that of no stored bucket of another volume. It does begin
those of the buckets of the volume whose names the argument begins. -/
structure Contained (arg : Bytes) : Prop where
  alone : ∀ b, Holds unmarshal r b →
    Path.Begins (reached volumeID arg) (reached b.volumeId b.bucketName) → b.volumeId = volumeID
  named : slash ∉ arg → ∀ b, Holds unmarshal r b → b.volumeId = volumeID → arg <+: b.bucketName →
    Path.Begins (reached volumeID arg) (reached b.volumeId b.bucketName)

end Operator

theorem isName_reached (v arg : Bytes) : ∀ e ∈ reached v arg, IsName e := by
  have hes : ∀ e ∈ pathElements v ++ pathElements arg, Path.IsElement slash dot e := by
    intro e he
    rcases List.mem_append.mp he with he | he
    · exact Path.isElement_of_mem_elements he
    · exact Path.isElement_of_mem_elements he
  obtain ⟨k, rest, heq, hrest, hk⟩ := Path.normal_resolve true hes
  rw [hk rfl, List.replicate_zero, List.nil_append] at heq
  rw [reached, heq]
  exact hrest

theorem genBucketID_eq_reached (v arg : Bytes) :
    genBucketID v arg = slash :: [slash].intercalate (reached v arg) := by
  rw [genBucketID, pathJoin, Path.join_of_rooted (by rfl)]
  simp only [List.flatMap_cons, List.flatMap_nil, Path.elements_sep_cons, Path.elements_nil,
    List.nil_append, List.append_nil]
  rfl

/-- The ID of an argument begins that of a bucket where its path begins the bucket's path. -/
theorem genBucketID_prefix_iff (v arg : Bytes) (b : BucketInfo) :
    genBucketID v arg <+: b.getID ↔
      Path.Begins (reached v arg) (reached b.volumeId b.bucketName) := by
  rw [BucketInfo.getID, genBucketID_eq_reached, genBucketID_eq_reached, List.cons_prefix_cons,
    ← Path.intercalate_prefix_intercalate (fun e he => (isName_reached v arg e he).toIsElement)
      fun e he => (isName_reached b.volumeId b.bucketName e he).toIsElement]
  simp

section Storage
variable {marshal : BaseInfo → Bytes} {unmarshal : Bytes → Option BaseInfo}

variable (unmarshal) in
def Keyed (s : RocksDBInfoStorage) : Prop :=
  ∀ (k : Bytes) (data : Bytes), s.cf[k]? = some data →
    ∃ b : BucketInfo, k = b.getID ∧ unmarshal data = some (.bucketInfo b)

theorem exists_bucketInfo {info : BaseInfo} (h : info.getInfoType = .BUCKET_INFO) :
    ∃ b, info = .bucketInfo b := by
  cases info with
  | bucketInfo b => exact ⟨b, rfl⟩
  | _ => cases h

theorem keyed_operate {s : RocksDBInfoStorage} {msg : ProposeInfoRequest} (h : Keyed unmarshal s)
    (htype : msg.baseInfo.getInfoType = .BUCKET_INFO)
    (hread : unmarshal (marshal msg.baseInfo) = some msg.baseInfo) :
    Keyed unmarshal (s.operate marshal msg) := by
  obtain ⟨b, hb⟩ := exists_bucketInfo htype
  have hput : Keyed unmarshal (s.update marshal msg.baseInfo) := by
    intro k data hk
    simp only [RocksDBInfoStorage.update, ExtTreeMap.getElem?_insert,
      LawfulEqCmp.compare_eq_iff_eq] at hk
    split_ifs at hk with heq
    · cases hk
      exact ⟨b, by rw [← heq, hb]; rfl, by rw [hread, hb]⟩
    · exact h k data hk
  unfold RocksDBInfoStorage.operate
  cases msg.operate with
  | ADD => exact hput
  | UPDATE => exact hput
  | DELETE =>
    intro k data hk
    simp only [RocksDBInfoStorage.delete, ExtTreeMap.getElem?_erase,
      LawfulEqCmp.compare_eq_iff_eq] at hk
    split_ifs at hk
    exact h k data hk

theorem keyed_foldl {s : RocksDBInfoStorage} {msgs : List ProposeInfoRequest}
    (h : Keyed unmarshal s) (htype : ∀ msg ∈ msgs, msg.baseInfo.getInfoType = .BUCKET_INFO)
    (hread : ∀ msg ∈ msgs, unmarshal (marshal msg.baseInfo) = some msg.baseInfo) :
    Keyed unmarshal (msgs.foldl (RocksDBInfoStorage.operate marshal) s) := by
  induction msgs generalizing s with
  | nil => exact h
  | cons msg msgs ih =>
    exact ih (keyed_operate h (htype msg List.mem_cons_self) (hread msg List.mem_cons_self))
      (fun m hm => htype m (List.mem_cons_of_mem msg hm))
      (fun m hm => hread m (List.mem_cons_of_mem msg hm))

/-- The bucket storage that entries of the log lead to. -/
theorem exists_keyed {msgs : List ProposeInfoRequest}
    (hread : ∀ msg ∈ msgs, unmarshal (marshal msg.baseInfo) = some msg.baseInfo) :
    ∃ s, (RocksDBStorageRegister.registerAllStorage.operateAll marshal msgs).storageMap
      .BUCKET_INFO = some s ∧ Keyed unmarshal s := by
  rw [RocksDBStorageRegister.storageMap_operateAll]
  refine ⟨_, rfl, keyed_foldl ?_ (fun msg hm => ?_) fun msg hm => ?_⟩
  · intro k data hk
    rw [show RocksDBInfoStorage.empty.cf[k]? = none from ExtTreeMap.getElem?_empty] at hk
    cases hk
  · exact of_decide_eq_true (List.mem_filter.mp hm).2
  · exact hread msg (List.mem_of_mem_filter hm)

variable {r : RocksDBStorageRegister} {s : RocksDBInfoStorage}

/-- What `List` returns: the buckets whose IDs extend that of the argument. -/
theorem list_eq_ok (hs : r.storageMap .BUCKET_INFO = some s) (hk : Keyed unmarshal s)
    (v arg : Bytes) : ∃ bs, EdgeVolumeOperator.list unmarshal r v arg = .ok bs ∧
      (∀ x ∈ bs, ∃ b, x = some b ∧ Holds unmarshal r b ∧ genBucketID v arg <+: b.getID) ∧
      ∀ b, Holds unmarshal r b → genBucketID v arg <+: b.getID → some b ∈ bs := by
  have hsome : ∀ e ∈ scan s.cf (genBucketID v arg), (unmarshal e.2).isSome := by
    intro e he
    obtain ⟨b, -, hb⟩ := hk e.1 e.2 (mem_scan.mp he).1
    rw [hb]
    rfl
  refine ⟨((scan s.cf (genBucketID v arg)).filterMap fun e => unmarshal e.2).map getBucketInfo, ?_,
    fun x hx => ?_, fun b hb hext => ?_⟩
  · simp only [EdgeVolumeOperator.list, RocksDBStorageRegister.list, hs, RocksDBInfoStorage.list]
    rw [RocksDBInfoStorage.mapM_read hsome]
    rfl
  · obtain ⟨info, hinfo, rfl⟩ := List.mem_map.mp hx
    obtain ⟨e, he, hinfo⟩ := List.mem_filterMap.mp hinfo
    obtain ⟨hget, hext⟩ := mem_scan.mp he
    obtain ⟨b, hid, hb⟩ := hk e.1 e.2 hget
    rw [hinfo] at hb
    cases hb
    exact ⟨b, rfl, ⟨s, e.2, hs, hid ▸ hget, hinfo⟩, hid ▸ hext⟩
  · obtain ⟨s', data, hs', hget, hb'⟩ := hb
    rw [hs] at hs'
    cases hs'
    refine List.mem_map.mpr ⟨.bucketInfo b, List.mem_filterMap.mpr ⟨(b.getID, data), ?_, hb'⟩, rfl⟩
    exact mem_scan.mpr ⟨hget, hext⟩

theorem get_eq_ok {x : Option BucketInfo} (hs : r.storageMap .BUCKET_INFO = some s)
    (hk : Keyed unmarshal s) {v arg : Bytes}
    (h : EdgeVolumeOperator.get unmarshal r v arg = .ok x) :
    ∃ b, x = some b ∧ Holds unmarshal r b ∧ genBucketID v arg = b.getID := by
  obtain ⟨info, hinfo, h⟩ := bind_eq_ok h
  cases h
  simp only [RocksDBStorageRegister.get, hs, RocksDBInfoStorage.get] at hinfo
  split at hinfo <;> cases hinfo
  next data hget =>
    obtain ⟨b, hid, hb⟩ := hk _ data hget
    rw [hb]
    exact ⟨b, rfl, ⟨s, data, hs, hid ▸ hget, hb⟩, hid⟩

/-- Only the bucket with the ID goes. -/
theorem id_of_removed {b : BucketInfo} {v arg : Bytes} (hb : Holds unmarshal r b)
    (h : ¬ Holds unmarshal (r.operate marshal (EdgeVolumeOperator.remove v arg)) b) :
    genBucketID v arg = b.getID := by
  obtain ⟨s, data, hs, hget, hb⟩ := hb
  by_contra hne
  refine h ⟨s.delete (genBucketID v arg), data, ?_, ?_, hb⟩
  · rw [RocksDBStorageRegister.storageMap_operate, hs]
    rfl
  · simp only [RocksDBInfoStorage.delete, ExtTreeMap.getElem?_erase,
      LawfulEqCmp.compare_eq_iff_eq, if_neg hne, hget]

end Storage

/-- Over any log of bucket operations, the operator of a volume keeps to its volume just where the
path of its argument is contained in it. -/
theorem isolated_iff_contained (marshal : BaseInfo → Bytes) (unmarshal : Bytes → Option BaseInfo)
    (msgs : List ProposeInfoRequest)
    (hread : ∀ msg ∈ msgs, unmarshal (marshal msg.baseInfo) = some msg.baseInfo)
    (volumeID arg : Bytes) :
    Isolated unmarshal (RocksDBStorageRegister.registerAllStorage.operateAll marshal msgs)
        volumeID marshal arg ↔
      Contained unmarshal (RocksDBStorageRegister.registerAllStorage.operateAll marshal msgs)
        volumeID arg := by
  obtain ⟨s, hs, hk⟩ := exists_keyed hread
  obtain ⟨bs, hlist, hsound, hcomplete⟩ := list_eq_ok hs hk volumeID arg
  constructor
  · rintro ⟨⟨bs', hlist', hvolume, hnamed⟩, -, -⟩
    rw [hlist] at hlist'
    cases hlist'
    refine ⟨fun b hb hbegins => ?_, fun hslash b hb hvol hname => ?_⟩
    · have hmem := hcomplete b hb ((genBucketID_prefix_iff volumeID arg b).mpr hbegins)
      exact Option.some.inj (hvolume _ hmem)
    · obtain ⟨b', hb', -, hext⟩ := hsound _ (hnamed hslash b hb hvol hname)
      cases hb'
      exact (genBucketID_prefix_iff volumeID arg b).mp hext
  · intro hc
    -- `Get` and `Remove` touch what `List` begins with
    have hid : ∀ b, Holds unmarshal _ b → genBucketID volumeID arg = b.getID →
        b.volumeId = volumeID := fun b hb heq =>
      hc.alone b hb ((genBucketID_prefix_iff volumeID arg b).mp (heq ▸ List.prefix_rfl))
    refine ⟨⟨bs, hlist, fun x hx => ?_, fun hslash b hb hvol hname => ?_⟩, fun x hx => ?_,
      fun b hb hremoved => hid b hb (id_of_removed hb hremoved)⟩
    · obtain ⟨b, rfl, hb, hext⟩ := hsound x hx
      rw [Option.map_some, hc.alone b hb ((genBucketID_prefix_iff volumeID arg b).mp hext)]
    · exact hcomplete b hb ((genBucketID_prefix_iff volumeID arg b).mpr
        (hc.named hslash b hb hvol hname))
    · obtain ⟨b, rfl, hb, heq⟩ := get_eq_ok hs hk hx
      rw [Option.map_some, hid b hb heq]

/-- The bucket `x` of a volume. -/
def bucketOf (volumeId : Bytes) : BucketInfo :=
  ⟨volumeId, [120], [], { keySlotNum := 5, blockSize := 4 }⟩

def readBack (bs : List BucketInfo) (data : Bytes) : Option BaseInfo :=
  (bs.find? fun b => b.getID = data).map .bucketInfo

theorem mem_of_holds {bs : List BucketInfo} {r : RocksDBStorageRegister} {b : BucketInfo}
    (h : Holds (readBack bs) r b) : b ∈ bs := by
  obtain ⟨s, data, -, -, hread⟩ := h
  obtain ⟨b', hfind, heq⟩ := Option.map_eq_some_iff.mp hread
  cases heq
  exact List.mem_of_find?_eq_some hfind

/-- The buckets `ab/x` and `cd/x`. -/
def apart : List BucketInfo := [bucketOf [97, 98], bucketOf [99, 100]]

/-- The buckets `ab/x` and `abc/x`. -/
def nested : List BucketInfo := [bucketOf [97, 98], bucketOf [97, 98, 99]]

def storeOf (bs : List BucketInfo) : RocksDBStorageRegister :=
  RocksDBStorageRegister.registerAllStorage.operateAll BaseInfo.getID
    (bs.map EdgeVolumeOperator.createBucket)

theorem isolated_apart : Isolated (readBack apart) (storeOf apart) [97, 98] BaseInfo.getID [] := by
  refine (isolated_iff_contained BaseInfo.getID (readBack apart) _ (by decide) [97, 98] []).mpr
    ⟨fun b hb => ?_, fun _ b hb => ?_⟩
  · have halone : ∀ b ∈ apart, Path.Begins (reached [97, 98] []) (reached b.volumeId b.bucketName) →
        b.volumeId = [97, 98] := by decide
    exact halone b (mem_of_holds hb)
  · have hnamed : ∀ b ∈ apart, b.volumeId = [97, 98] → [] <+: b.bucketName →
        Path.Begins (reached [97, 98] []) (reached b.volumeId b.bucketName) := by decide
    exact hnamed b (mem_of_holds hb)

/-- The volume `ab` lists the bucket of `abc`, and gets and removes it as `../abc/x`. -/
theorem other_volume_touched :
    EdgeVolumeOperator.list (readBack nested) (storeOf nested) [97, 98] [] =
        .ok [some (bucketOf [97, 98]), some (bucketOf [97, 98, 99])] ∧
      EdgeVolumeOperator.get (readBack nested) (storeOf nested) [97, 98]
        [46, 46, 47, 97, 98, 99, 47, 120] = .ok (some (bucketOf [97, 98, 99])) ∧
      (Holds (readBack nested) (storeOf nested) (bucketOf [97, 98, 99]) ∧
        ¬ Holds (readBack nested) ((storeOf nested).operate BaseInfo.getID
          (EdgeVolumeOperator.remove [97, 98] [46, 46, 47, 97, 98, 99, 47, 120]))
          (bucketOf [97, 98, 99])) ∧
      ¬ Isolated (readBack nested) (storeOf nested) [97, 98] BaseInfo.getID [] ∧
      ¬ Isolated (readBack nested) (storeOf nested) [97, 98] BaseInfo.getID
        [46, 46, 47, 97, 98, 99, 47, 120] := by
  have hlist : EdgeVolumeOperator.list (readBack nested) (storeOf nested) [97, 98] [] =
      .ok [some (bucketOf [97, 98]), some (bucketOf [97, 98, 99])] := by decide +kernel
  have hget : EdgeVolumeOperator.get (readBack nested) (storeOf nested) [97, 98]
      [46, 46, 47, 97, 98, 99, 47, 120] = .ok (some (bucketOf [97, 98, 99])) := by decide +kernel
  have hbefore : Holds (readBack nested) (storeOf nested) (bucketOf [97, 98, 99]) :=
    ⟨_, (bucketOf [97, 98, 99]).getID, rfl, by decide +kernel, by decide⟩
  have hgone : (((storeOf nested).operate BaseInfo.getID (EdgeVolumeOperator.remove [97, 98]
      [46, 46, 47, 97, 98, 99, 47, 120])).storageMap .BUCKET_INFO).bind
        (fun s => s.cf[(bucketOf [97, 98, 99]).getID]?) = none := by decide +kernel
  refine ⟨hlist, hget, ⟨hbefore, ?_⟩, fun h => ?_, fun h => ?_⟩
  · rintro ⟨s, data, hs, hdata, -⟩
    rw [hs, Option.bind_some, hdata] at hgone
    cases hgone
  · obtain ⟨bs, hbs, hvol, -⟩ := h.listed
    rw [hlist] at hbs
    cases hbs
    exact absurd (hvol (some (bucketOf [97, 98, 99])) (by simp)) (by decide)
  · exact absurd (h.got _ hget) (by decide)

end Ecos.Client
