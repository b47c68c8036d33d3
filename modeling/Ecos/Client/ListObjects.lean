import Ecos.Alaya.Pipelines
import Ecos.Alaya.Service
import Ecos.ObjectId

namespace Ecos.Client
open Go Alaya Moon Std

/-- What the client sees of the edge: the current cluster info, and the storages of the node that
it reaches under an ID. -/
structure Edge where
  clusterInfo : ClusterInfo
  alaya : UInt64 → Except Errno Register

variable (ring : Mapper) (select : Select)

section List
variable (edge : Edge) (bucketInfo : BucketInfo) (pre : Bytes)

/-- The `Prefix` of the request for a slot. -/
def slotQuery (i : ℕ) : Bytes := pathJoin [bucketInfo.getID, formatInt i, pre]

/-- One pass of the loop. `ListMeta` fails only without a term, and the client sets one. -/
def listSlot (i : ℕ) : Except Errno (List ObjectMeta) :=
  let pgID := genSlotPgID ring bucketInfo.getID (Int32.ofNat i) edge.clusterInfo.metaPgNum
  match (genMetaPipelines select edge.clusterInfo)[(pgID - 1).toNat]? with
  | some ⟨_, nodeID :: _, _, _⟩ => do
    let register ← edge.alaya nodeID
    return listMeta register (slotQuery bucketInfo pre i)
  | _ => .error (.other "index out of range")

/-- The loop, from slot `i`. It ends where `int32(i)` is above the number of slots. -/
def listFrom : ℕ → ℕ → List ObjectMeta → Option (Except Errno (List ObjectMeta))
  | 0, _, _ => none
  | fuel + 1, i, result =>
    if Int32.ofNat i ≤ bucketInfo.config.keySlotNum then
      match listSlot ring select edge bucketInfo pre i with
      | .error e => some (.error e)
      | .ok metas => listFrom fuel (i + 1) (result ++ metas)
    else some (.ok result)

/-- `listObjectsByEdge`, once it has the bucket's info. -/
def listObjectsByEdge (fuel : ℕ) : Option (Except Errno (List ObjectMeta)) :=
  listFrom ring select edge bucketInfo pre fuel 1 []

end List

abbrev Recorded := UInt64 → Bytes → Option ObjectMeta

section Assumptions
variable (edge : Edge) (bucketInfo : BucketInfo) (recorded : Recorded)

/-- Metas are recorded under the IDs of objects, in the groups of their slots. A bucket ID stands
for one bucket. -/
structure Placed : Prop where
  origin : ∀ (pg : UInt64) (k : Bytes) (m : ObjectMeta), recorded pg k = some m →
    ∃ b key, IsName b.volumeId ∧ IsName b.bucketName ∧ ProperKey key ∧
      (b.getID = bucketInfo.getID → b = bucketInfo) ∧ k = genObjectId ring b key ∧
      pg = genObjPgID ring b key edge.clusterInfo.metaPgNum
  objId : ∀ (pg : UInt64) (k : Bytes) (m : ObjectMeta), recorded pg k = some m → m.objId = k

/-- The nodes of a group hold what is recorded in it, and no node holds anything else. -/
structure Replicated : Prop where
  pgNum : 1 ≤ edge.clusterInfo.metaPgNum
  pipelines : genMetaPipelines select edge.clusterInfo ≠ []
  nodes : ∀ p ∈ genMetaPipelines select edge.clusterInfo, p.raftId ≠ []
  holds : ∀ p ∈ genMetaPipelines select edge.clusterInfo, ∀ node ∈ p.raftId,
    ∃ (register : Register) (storage : MemoryMetaStorage),
      edge.alaya node = .ok register ∧ register[p.pgId]? = some storage ∧
        ∀ (k : Bytes) (m : ObjectMeta), recorded p.pgId k = some m → storage.metaMap[k]? = some m
  only : ∀ (node : UInt64) (register : Register), edge.alaya node = .ok register →
    ∀ (pg : UInt64) (storage : MemoryMetaStorage), register[pg]? = some storage →
      ∀ (k : Bytes) (m : ObjectMeta), storage.metaMap[k]? = some m → recorded pg k = some m

def RecordedAs (key : Bytes) (m : ObjectMeta) : Prop :=
  ProperKey key ∧ recorded (genObjPgID ring bucketInfo key edge.clusterInfo.metaPgNum)
    (genObjectId ring bucketInfo key) = some m

/-- The mapper works as set up, the bucket has proper names and a slot, and the nodes of the groups
hold what is recorded. -/
structure Ready : Prop where
  mapper : InRange ring
  slots : 1 ≤ bucketInfo.config.keySlotNum
  volume : IsName bucketInfo.volumeId
  name : IsName bucketInfo.bucketName
  placed : Placed ring edge bucketInfo recorded
  replicated : Replicated select edge recorded

end Assumptions

section Condition
variable (edge : Edge) (bucketInfo : BucketInfo) (recorded : Recorded) (pre : Bytes)

def askedNode (slot : Int32) : Option UInt64 :=
  (genMetaPipelines select edge.clusterInfo)[(genSlotPgID ring bucketInfo.getID slot
    edge.clusterInfo.metaPgNum - 1).toNat]?.bind fun p => p.raftId.head?

/-- The number of the slot begins that of the object's slot, and the node that is asked for the
slot has the object too. -/
def Strays (slot : Int32) (key : Bytes) (m : ObjectMeta) : Prop :=
  slot ≠ calculateSlot ring key bucketInfo.config.keySlotNum ∧
    formatInt slot.toInt <+:
      formatInt (calculateSlot ring key bucketInfo.config.keySlotNum).toInt ∧
    ∃ (node : UInt64) (register : Register) (storage : MemoryMetaStorage),
      askedNode ring select edge bucketInfo slot = some node ∧ edge.alaya node = .ok register ∧
      register[genObjPgID ring bucketInfo key edge.clusterInfo.metaPgNum]? = some storage ∧
      storage.metaMap[genObjectId ring bucketInfo key]? = some m

/-- The cleaned prefix selects no recorded key that the prefix does not, and where it is empty no
recorded object is found in the request for another slot. -/
structure Separated : Prop where
  bounded : bucketInfo.config.keySlotNum < Int32.maxValue
  cleaned : ∀ key m, RecordedAs ring edge bucketInfo recorded key m →
    [slash].intercalate (pathElements pre) <+: cleanObjectKey key → pre <+: cleanObjectKey key
  apart : pathElements pre = [] → ∀ key m, RecordedAs ring edge bucketInfo recorded key m →
    ∀ slot, 1 ≤ slot → slot ≤ bucketInfo.config.keySlotNum →
      ¬ Strays ring select edge bucketInfo slot key m

/-- The listing ends, and has each object whose key begins with the prefix once, and no other. -/
def Lists (fuel : ℕ) : Prop :=
  ∃ metas, listObjectsByEdge ring select edge bucketInfo pre fuel = some (.ok metas) ∧
    metas.Nodup ∧ ∀ m, m ∈ metas ↔ ∃ key, RecordedAs ring edge bucketInfo recorded key m ∧
      pre <+: cleanObjectKey key

end Condition

section Matching
variable {ring} {bucket : BucketInfo}

theorem names_of_up_notMem {pre : Bytes} (h : Path.up dot ∉ pathElements pre) :
    ∀ e ∈ pathElements pre, IsName e := by
  intro e he
  exact ⟨Path.isElement_of_mem_elements he, fun heq => h (heq ▸ he)⟩

/-- The elements that the request for a slot asks for. -/
theorem cleanObjectKey_slotQuery (hv : IsName bucket.volumeId) (hb : IsName bucket.bucketName)
    {pre : Bytes} (hpre : Path.up dot ∉ pathElements pre) {slot : Int32} {i : ℕ}
    (hi : slot.toInt = i) :
    cleanObjectKey (slotQuery bucket pre i) =
      [slash].intercalate (bucketElements bucket slot ++ pathElements pre) := by
  have hnames : ∀ e ∈ bucketElements bucket slot ++ pathElements pre, IsName e := by
    intro e he
    rcases List.mem_append.mp he with he | he
    · exact isName_bucketElements hv hb slot e he
    · exact names_of_up_notMem hpre e he
  have hrooted : Path.isRooted slash bucket.getID = true := by
    rw [BucketInfo.getID, genBucketID_eq hv hb]
    rfl
  have hel : [bucket.getID, formatInt i, pre].flatMap (Path.elements slash dot) =
      bucketElements bucket slot ++ pathElements pre := by
    have hid : Path.elements slash dot bucket.getID = [bucket.volumeId, bucket.bucketName] :=
      elements_genBucketID hv hb
    simp only [List.flatMap_cons, List.flatMap_nil, hid, List.append_nil, ← hi,
      Path.elements_of_isElement (isName_formatInt slot.toInt).toIsElement]
    rfl
  have hnormal : Path.Normal slash dot true (bucketElements bucket slot ++ pathElements pre) :=
    ⟨0, _, rfl, hnames, fun _ => rfl⟩
  rw [slotQuery, pathJoin, Path.join_of_rooted hrooted, hel, Path.resolve_normal hnormal,
    cleanObjectKey, pathClean, Path.clean_render slash_ne_dot hnormal]
  simp [Path.render]

theorem formatInt_injective {s t : Int32} (h : formatInt s.toInt = formatInt t.toInt) : s = t := by
  have hatoi := congrArg atoi h
  rw [atoi_int32, atoi_int32] at hatoi
  exact Int32.toInt_inj.mp (Option.some.inj hatoi)

/-- What an ID that extends the request for a slot has in common with it. -/
theorem slot_of_extends {b : BucketInfo} {es ke : List Bytes} {s t : Int32}
    (hv : IsName bucket.volumeId) (hb : IsName bucket.bucketName) (hv' : IsName b.volumeId)
    (hb' : IsName b.bucketName) (hke : ∀ e ∈ ke, IsName e) (hne : ke ≠ [])
    (h : [slash].intercalate (bucketElements bucket s ++ es) <+:
      [slash].intercalate (bucketElements b t ++ ke)) :
    b.getID = bucket.getID ∧ (t = s ∨ es = [] ∧ formatInt s.toInt <+: formatInt t.toInt) ∧
      [slash].intercalate es <+: [slash].intercalate ke := by
  have hfree : ∀ e ∈ bucketElements b t ++ ke, slash ∉ e := by
    intro e he
    rcases List.mem_append.mp he with he | he
    · exact (isName_bucketElements hv' hb' t e he).sep_free
    · exact (hke e he).sep_free
  by_cases hnil : es = []
  · -- the number of the slot ends the request
    subst hnil
    have hcut : [slash].intercalate [bucket.volumeId, bucket.bucketName] ++ [slash] <+:
        [slash].intercalate (bucketElements b t ++ ke) := by
      refine List.IsPrefix.trans ⟨formatInt s.toInt, ?_⟩ h
      simp [bucketElements, List.intercalate_cons_cons]
    obtain ⟨u, -, hu⟩ := (Path.intercalate_prefix_iff (by simp)
      (fun e he => (names_pair hv hb e he).sep_free) hfree).mp hcut
    simp only [bucketElements, List.cons_append, List.nil_append, List.cons.injEq] at hu
    obtain ⟨hvol, hname, -⟩ := hu
    refine ⟨by rw [BucketInfo.getID, BucketInfo.getID, hvol, hname], .inr ⟨rfl, ?_⟩, by simp⟩
    rw [Path.intercalate_append (bucketElements_ne_nil _) hne] at h
    simp only [bucketElements, hvol, hname, List.append_nil, List.intercalate_cons_cons,
      List.intercalate_singleton, List.append_assoc, List.prefix_append_right_inj] at h
    exact Path.prefix_of_prefix_append_sep (isName_formatInt s.toInt).sep_free h
  · -- a separator follows the number, so the numbers are the same
    rw [Path.intercalate_append (bucketElements_ne_nil _) hnil] at h
    have hcut : [slash].intercalate (bucketElements bucket s) ++ [slash] <+:
        [slash].intercalate (bucketElements b t ++ ke) :=
      List.IsPrefix.trans ⟨[slash].intercalate es, by simp⟩ h
    obtain ⟨u, -, hu⟩ := (Path.intercalate_prefix_iff (bucketElements_ne_nil _)
      (fun e he => (isName_bucketElements hv hb s e he).sep_free) hfree).mp hcut
    simp only [bucketElements, List.cons_append, List.nil_append, List.cons.injEq] at hu
    obtain ⟨hvol, hname, hslot, -⟩ := hu
    obtain rfl := formatInt_injective hslot
    have hsame : bucketElements b t = bucketElements bucket t := by
      rw [bucketElements, bucketElements, hvol, hname]
    refine ⟨by rw [BucketInfo.getID, BucketInfo.getID, hvol, hname], .inl rfl, ?_⟩
    rw [Path.intercalate_append (bucketElements_ne_nil _) hne, hsame, List.prefix_append_right_inj,
      List.cons_prefix_cons] at h
    exact h.2

/-- An ID in the slot whose key begins as asked extends the request. -/
theorem extends_of_begins {es ke : List Bytes} (s : Int32) (hne : ke ≠ [])
    (h : [slash].intercalate es <+: [slash].intercalate ke) :
    [slash].intercalate (bucketElements bucket s ++ es) <+:
      [slash].intercalate (bucketElements bucket s ++ ke) := by
  rw [Path.intercalate_append (bucketElements_ne_nil _) hne]
  by_cases hnil : es = []
  · rw [hnil, List.append_nil]
    exact List.prefix_append _ _
  · rw [Path.intercalate_append (bucketElements_ne_nil _) hnil, List.prefix_append_right_inj,
      List.cons_prefix_cons]
    exact ⟨rfl, h⟩

/-- So does an ID in a slot whose number begins with that of this one, where no more is asked. -/
theorem extends_of_digits {ke : List Bytes} {s t : Int32} (hne : ke ≠ [])
    (h : formatInt s.toInt <+: formatInt t.toInt) :
    [slash].intercalate (bucketElements bucket s) <+:
      [slash].intercalate (bucketElements bucket t ++ ke) := by
  rw [Path.intercalate_append (bucketElements_ne_nil _) hne]
  refine List.IsPrefix.trans ?_ (List.prefix_append _ _)
  simp only [bucketElements, List.intercalate_cons_cons, List.intercalate_singleton,
    List.append_assoc, List.prefix_append_right_inj]
  exact h

end Matching

section Slot
variable {ring : Mapper} {select : Select} {edge : Edge} {bucketInfo : BucketInfo}
  {recorded : Recorded} {pre : Bytes} {slot : Int32} {i : ℕ}

def Answered (ring : Mapper) (select : Select) (edge : Edge) (bucketInfo : BucketInfo)
    (recorded : Recorded) (pre : Bytes) (slot : Int32) (key : Bytes) (m : ObjectMeta) : Prop :=
  RecordedAs ring edge bucketInfo recorded key m ∧
    [slash].intercalate (pathElements pre) <+: cleanObjectKey key ∧
    (calculateSlot ring key bucketInfo.config.keySlotNum = slot ∨
      pathElements pre = [] ∧ Strays ring select edge bucketInfo slot key m)

/-- What matches the request for a slot is an object of the slot, or of one whose number begins
with that of the slot. -/
theorem key_of_extends (h : Ready ring select edge bucketInfo recorded)
    (hpre : Path.up dot ∉ pathElements pre) (hi : slot.toInt = i) {pg : UInt64} {k : Bytes}
    {m : ObjectMeta} (hm : recorded pg k = some m)
    (hk : cleanObjectKey (slotQuery bucketInfo pre i) <+: k) :
    ∃ key, RecordedAs ring edge bucketInfo recorded key m ∧
      [slash].intercalate (pathElements pre) <+: cleanObjectKey key ∧
      (calculateSlot ring key bucketInfo.config.keySlotNum = slot ∨
        pathElements pre = [] ∧ formatInt slot.toInt <+:
          formatInt (calculateSlot ring key bucketInfo.config.keySlotNum).toInt) ∧
      k = genObjectId ring bucketInfo key ∧
      pg = genObjPgID ring bucketInfo key edge.clusterInfo.metaPgNum := by
  obtain ⟨b, key, hv', hb', hkey, hone, rfl, rfl⟩ := h.placed.origin pg k m hm
  rw [cleanObjectKey_slotQuery h.volume h.name hpre hi, genObjectId_of_proper hv' hb' hkey] at hk
  obtain ⟨hid, hslot, hbegins⟩ :=
    slot_of_extends h.volume h.name hv' hb' hkey.names hkey.elements_ne_nil hk
  obtain rfl := hone hid
  exact ⟨key, ⟨hkey, hm⟩, by rwa [cleanObjectKey_eq hkey.elements_ne_nil], hslot, rfl, rfl⟩

/-- The ID of an object that is returned matches the request. -/
theorem extends_of_answered (h : Ready ring select edge bucketInfo recorded)
    (hpre : Path.up dot ∉ pathElements pre) (hi : slot.toInt = i) {key : Bytes} {m : ObjectMeta}
    (hm : Answered ring select edge bucketInfo recorded pre slot key m) :
    cleanObjectKey (slotQuery bucketInfo pre i) <+: genObjectId ring bucketInfo key := by
  obtain ⟨⟨hkey, -⟩, hbegins, hslot⟩ := hm
  rw [cleanObjectKey_slotQuery h.volume h.name hpre hi,
    genObjectId_of_proper h.volume h.name hkey]
  rw [cleanObjectKey_eq hkey.elements_ne_nil] at hbegins
  rcases hslot with rfl | ⟨hnil, -, hdigits, -⟩
  · exact extends_of_begins _ hkey.elements_ne_nil hbegins
  · rw [hnil, List.append_nil]
    exact extends_of_digits hkey.elements_ne_nil hdigits

theorem cleanObjectKey_cleaned_slotQuery (h : Ready ring select edge bucketInfo recorded)
    (hpre : Path.up dot ∉ pathElements pre) (hi : slot.toInt = i) :
    cleanObjectKey (cleanObjectKey (slotQuery bucketInfo pre i)) =
      cleanObjectKey (slotQuery bucketInfo pre i) := by
  rw [cleanObjectKey_slotQuery h.volume h.name hpre hi]
  refine cleanObjectKey_names (by simp [bucketElements]) fun e he => ?_
  rcases List.mem_append.mp he with he | he
  · exact isName_bucketElements h.volume h.name slot e he
  · exact names_of_up_notMem hpre e he

/-- The node that is asked for a slot, and the storage of the slot's group there. -/
theorem listSlot_eq (h : Ready ring select edge bucketInfo recorded) (hi : slot.toInt = i) :
    ∃ (node : UInt64) (register : Register) (storage : MemoryMetaStorage),
      listSlot ring select edge bucketInfo pre i =
        .ok (listMeta register (slotQuery bucketInfo pre i)) ∧
      askedNode ring select edge bucketInfo slot = some node ∧ edge.alaya node = .ok register ∧
      register[genSlotPgID ring bucketInfo.getID slot edge.clusterInfo.metaPgNum]? = some storage ∧
      ∀ (k : Bytes) (m : ObjectMeta),
        recorded (genSlotPgID ring bucketInfo.getID slot edge.clusterInfo.metaPgNum) k = some m →
        storage.metaMap[k]? = some m := by
  have hr := h.replicated
  have hcast : Int32.ofNat i = slot := by rw [← Int32.ofInt_eq_ofNat, ← hi, Int32.ofInt_toInt]
  obtain ⟨hlo, hhi⟩ := mapIDtoPG_bounds h.mapper hr.pgNum
    (bucketInfo.getID ++ [slash] ++ stringOfRune slot)
  have hnum := toNat_pgNum hr.pgNum
  obtain ⟨p, hp, hpg⟩ := getElem?_genPipelines hr.pipelines hlo (by omega)
  change p.pgId = genSlotPgID ring bucketInfo.getID slot edge.clusterInfo.metaPgNum at hpg
  obtain ⟨node, rest, hnodes⟩ := List.exists_cons_of_ne_nil (hr.nodes p (List.mem_of_getElem? hp))
  obtain ⟨register, storage, halaya, hstorage, hholds⟩ :=
    hr.holds p (List.mem_of_getElem? hp) node (by simp [hnodes])
  have hnode : askedNode ring select edge bucketInfo slot = some node := by
    rw [askedNode, show (genMetaPipelines select edge.clusterInfo)[(genSlotPgID ring
      bucketInfo.getID slot edge.clusterInfo.metaPgNum - 1).toNat]? = some p from hp]
    simp [hnodes]
  refine ⟨node, register, storage, ?_, hnode, halaya, hpg ▸ hstorage, hpg ▸ hholds⟩
  have hfound : (genMetaPipelines select edge.clusterInfo)[(genSlotPgID ring bucketInfo.getID
      (Int32.ofNat i) edge.clusterInfo.metaPgNum - 1).toNat]? = some p := by rw [hcast]; exact hp
  obtain ⟨pgId, raftId, syncType, term⟩ := p
  obtain rfl : raftId = node :: rest := hnodes
  simp only [listSlot, hfound, halaya]
  rfl

/-- A match on the node that is asked is one of the objects. -/
theorem answered_of_mem_list (h : Ready ring select edge bucketInfo recorded)
    (hpre : Path.up dot ∉ pathElements pre) (hi : slot.toInt = i) {node : UInt64}
    {register : Register} (hnode : askedNode ring select edge bucketInfo slot = some node)
    (halaya : edge.alaya node = .ok register) {pg : UInt64} {storage : MemoryMetaStorage}
    (hget : register[pg]? = some storage) {m : ObjectMeta}
    (hm : m ∈ storage.list (cleanObjectKey (slotQuery bucketInfo pre i))) :
    ∃ key, Answered ring select edge bucketInfo recorded pre slot key m ∧
      m.objId = genObjectId ring bucketInfo key ∧
      pg = genObjPgID ring bucketInfo key edge.clusterInfo.metaPgNum := by
  obtain ⟨k, hk, hext⟩ := MemoryMetaStorage.mem_list.mp hm
  have hrec := h.replicated.only node register halaya pg storage hget k m hk
  obtain ⟨key, hkey, hbegins, hslot, rfl, hpg⟩ := key_of_extends h hpre hi hrec hext
  refine ⟨key, ⟨hkey, hbegins, ?_⟩, h.placed.objId _ _ m hrec, hpg⟩
  by_cases hsame : calculateSlot ring key bucketInfo.config.keySlotNum = slot
  · exact .inl hsame
  · obtain ⟨hnil, hdigits⟩ := hslot.resolve_left hsame
    exact .inr ⟨hnil, Ne.symm hsame, hdigits, node, register, storage, hnode, halaya,
      hpg ▸ hget, hk⟩

/-- The node has the group of the slot, and what strays is said to be on it. -/
theorem stored_of_answered {node : UInt64} {register : Register} {storage : MemoryMetaStorage}
    (hnode : askedNode ring select edge bucketInfo slot = some node)
    (halaya : edge.alaya node = .ok register)
    (hstorage : register[genSlotPgID ring bucketInfo.getID slot edge.clusterInfo.metaPgNum]? =
      some storage)
    (hholds : ∀ (k : Bytes) (m : ObjectMeta),
      recorded (genSlotPgID ring bucketInfo.getID slot edge.clusterInfo.metaPgNum) k = some m →
      storage.metaMap[k]? = some m) {key : Bytes} {m : ObjectMeta}
    (hin : Answered ring select edge bucketInfo recorded pre slot key m) :
    ∃ storage' : MemoryMetaStorage,
      register[genObjPgID ring bucketInfo key edge.clusterInfo.metaPgNum]? = some storage' ∧
        storage'.metaMap[genObjectId ring bucketInfo key]? = some m := by
  rcases hin.2.2 with hsame | ⟨-, -, -, node', register', storage', hnode', halaya', hget, hk⟩
  · have hpg : genObjPgID ring bucketInfo key edge.clusterInfo.metaPgNum =
        genSlotPgID ring bucketInfo.getID slot edge.clusterInfo.metaPgNum := by
      rw [genObjPgID_of_proper hin.1.1, hsame]
    exact ⟨storage, hpg ▸ hstorage, hholds _ m (hpg ▸ hin.1.2)⟩
  · obtain rfl := Option.some.inj (hnode.symm.trans hnode')
    obtain rfl := Except.ok.inj (halaya.symm.trans halaya')
    exact ⟨storage', hget, hk⟩

/-- The request for a slot returns exactly the objects that it matches on the node, each once. -/
theorem listSlot_exact (h : Ready ring select edge bucketInfo recorded)
    (hpre : Path.up dot ∉ pathElements pre) (hi : slot.toInt = i) :
    ∃ metas, listSlot ring select edge bucketInfo pre i = .ok metas ∧ metas.Nodup ∧
      ∀ m, m ∈ metas ↔ ∃ key, Answered ring select edge bucketInfo recorded pre slot key m := by
  obtain ⟨node, register, storage, hlist, hnode, halaya, hstorage, hholds⟩ := listSlot_eq h hi
  have honly := h.replicated.only node register halaya
  rw [listMeta_eq (cleanObjectKey_cleaned_slotQuery h hpre hi)] at hlist
  have hget : ∀ e ∈ register.toList, register[e.1]? = some e.2 := fun e he =>
    ExtTreeMap.mem_toList_iff_getElem?_eq_some.mp he
  refine ⟨_, hlist, List.nodup_flatMap.mpr ⟨fun e he => ?_, ?_⟩, fun m => ⟨fun hm => ?_, ?_⟩⟩
  · exact MemoryMetaStorage.nodup_list _ fun k m hk =>
      h.placed.objId e.1 k m (honly e.1 e.2 (hget e he) k m hk)
  · refine (register.distinct_keys_toList).imp_of_mem fun {a b} ha hb hne m hma hmb => hne ?_
    -- one ID, one key, one group
    obtain ⟨key, ⟨⟨hkey, -⟩, -⟩, hid, hpg⟩ :=
      answered_of_mem_list h hpre hi hnode halaya (hget a ha) hma
    obtain ⟨key', ⟨⟨hkey', -⟩, -⟩, hid', hpg'⟩ :=
      answered_of_mem_list h hpre hi hnode halaya (hget b hb) hmb
    have hclean := (genObjectId_injective ring h.volume h.name h.volume h.name hkey hkey'
      (hid.symm.trans hid')).2.2
    rw [LawfulEqCmp.compare_eq_iff_eq, hpg, hpg', genObjPgID, genObjPgID, hclean]
  · obtain ⟨e, he, hm⟩ := List.mem_flatMap.mp hm
    obtain ⟨key, hin, -⟩ := answered_of_mem_list h hpre hi hnode halaya (hget e he) hm
    exact ⟨key, hin⟩
  · rintro ⟨key, hin⟩
    obtain ⟨storage', hget', hk⟩ := stored_of_answered hnode halaya hstorage hholds hin
    exact List.mem_flatMap.mpr ⟨(_, storage'), ExtTreeMap.mem_toList_iff_getElem?_eq_some.mpr hget',
      MemoryMetaStorage.mem_list.mpr ⟨_, hk, extends_of_answered h hpre hi hin⟩⟩

/-- An object has one key, up to cleaning. -/
theorem cleanObjectKey_unique (h : Ready ring select edge bucketInfo recorded) {key key' : Bytes}
    {m : ObjectMeta} (hm : RecordedAs ring edge bucketInfo recorded key m)
    (hm' : RecordedAs ring edge bucketInfo recorded key' m) :
    cleanObjectKey key = cleanObjectKey key' := by
  have hid := (h.placed.objId _ _ m hm.2).symm.trans (h.placed.objId _ _ m hm'.2)
  exact (genObjectId_injective ring h.volume h.name h.volume h.name hm.1 hm'.1 hid).2.2

/-- An object is in one slot. -/
theorem slot_unique (h : Ready ring select edge bucketInfo recorded) {key key' : Bytes}
    {m : ObjectMeta} (hm : RecordedAs ring edge bucketInfo recorded key m)
    (hm' : RecordedAs ring edge bucketInfo recorded key' m) :
    calculateSlot ring key bucketInfo.config.keySlotNum =
      calculateSlot ring key' bucketInfo.config.keySlotNum := by
  rw [calculateSlot, calculateSlot, cleanObjectKey_unique h hm hm']

end Slot

section Loop
variable {ring : Mapper} {select : Select} {edge : Edge} {bucketInfo : BucketInfo}
  {recorded : Recorded} {pre : Bytes}

/-- The loop visits every slot once and ends. -/
theorem listFrom_eq {n : ℕ} (hn : bucketInfo.config.keySlotNum.toInt = n) (hmax : n + 1 < 2 ^ 31)
    {f : ℕ → List ObjectMeta}
    (hf : ∀ j, 1 ≤ j → j ≤ n → listSlot ring select edge bucketInfo pre j = .ok (f j))
    {fuel i : ℕ} (hi : 1 ≤ i) (hin : i ≤ n + 1) (hfuel : n + 1 - i < fuel)
    (result : List ObjectMeta) :
    listFrom ring select edge bucketInfo pre fuel i result =
      some (.ok (result ++ (List.range' i (n + 1 - i)).flatMap f)) := by
  induction fuel generalizing i result with
  | zero => omega
  | succ fuel ih =>
    have hcast : (Int32.ofNat i).toInt = i := Int32.toInt_ofNat_of_lt (by omega)
    rw [listFrom]
    by_cases hle : i ≤ n
    · rw [if_pos (Int32.le_iff_toInt_le.mpr (by omega)), hf i hi hle]
      simp only
      rw [ih (by omega) (by omega) (by omega), show n + 1 - i = n + 1 - (i + 1) + 1 by omega,
        List.range'_succ, List.flatMap_cons, List.append_assoc]
    · rw [if_neg (by rw [Int32.le_iff_toInt_le]; omega), show n + 1 - i = 0 by omega]
      simp

variable (ring select edge bucketInfo pre) in
def slotMetas (i : ℕ) : List ObjectMeta :=
  (listSlot ring select edge bucketInfo pre i).toOption.getD []

theorem slotMetas_exact (h : Ready ring select edge bucketInfo recorded)
    (hpre : Path.up dot ∉ pathElements pre) {i : ℕ}
    (hle : (i : ℤ) ≤ bucketInfo.config.keySlotNum.toInt) :
    listSlot ring select edge bucketInfo pre i = .ok (slotMetas ring select edge bucketInfo pre i) ∧
      (slotMetas ring select edge bucketInfo pre i).Nodup ∧
      ∀ m, m ∈ slotMetas ring select edge bucketInfo pre i ↔
        ∃ key, Answered ring select edge bucketInfo recorded pre (Int32.ofNat i) key m := by
  have hlt := bucketInfo.config.keySlotNum.toInt_lt
  have hcast : (Int32.ofNat i).toInt = i := Int32.toInt_ofNat_of_lt (by omega)
  obtain ⟨metas, hlist, hexact⟩ := listSlot_exact h hpre hcast
  have hmetas : slotMetas ring select edge bucketInfo pre i = metas := by
    rw [slotMetas, hlist]
    rfl
  rw [hmetas]
  exact ⟨hlist, hexact⟩

/-- Without strays, no object is returned for two slots. -/
theorem disjoint_slotMetas (h : Ready ring select edge bucketInfo recorded)
    (hpre : Path.up dot ∉ pathElements pre)
    (hsep : Separated ring select edge bucketInfo recorded pre)
    {i j : ℕ} (hi : 1 ≤ i) (hlt : i < j) (hj : (j : ℤ) ≤ bucketInfo.config.keySlotNum.toInt) :
    List.Disjoint (slotMetas ring select edge bucketInfo pre i)
      (slotMetas ring select edge bucketInfo pre j) := by
  intro m hmi hmj
  have hmax := bucketInfo.config.keySlotNum.toInt_lt
  have hone : (1 : Int32).toInt = 1 := rfl
  have hcasti : (Int32.ofNat i).toInt = i := Int32.toInt_ofNat_of_lt (by omega)
  have hcastj : (Int32.ofNat j).toInt = j := Int32.toInt_ofNat_of_lt (by omega)
  obtain ⟨key, hrec, -, hs⟩ := ((slotMetas_exact h hpre (by omega)).2.2 m).mp hmi
  obtain ⟨key', hrec', -, hs'⟩ := ((slotMetas_exact h hpre hj).2.2 m).mp hmj
  have hi' : calculateSlot ring key bucketInfo.config.keySlotNum = Int32.ofNat i := by
    rcases hs with hs | ⟨hnil, hstray⟩
    · exact hs
    · exact absurd hstray (hsep.apart hnil key m hrec _ (Int32.le_iff_toInt_le.mpr (by omega))
        (Int32.le_iff_toInt_le.mpr (by omega)))
  have hj' : calculateSlot ring key' bucketInfo.config.keySlotNum = Int32.ofNat j := by
    rcases hs' with hs | ⟨hnil, hstray⟩
    · exact hs
    · exact absurd hstray (hsep.apart hnil key' m hrec' _ (Int32.le_iff_toInt_le.mpr (by omega))
        (Int32.le_iff_toInt_le.mpr (by omega)))
  have hsame := congrArg Int32.toInt (hi'.symm.trans ((slot_unique h hrec hrec').trans hj'))
  omega

/-- The slots together have the objects that the cleaned prefix selects. -/
theorem exists_slot_iff (h : Ready ring select edge bucketInfo recorded)
    (hpre : Path.up dot ∉ pathElements pre) {n : ℕ}
    (hn : bucketInfo.config.keySlotNum.toInt = n) (m : ObjectMeta) :
    (∃ i ∈ List.range' 1 n, m ∈ slotMetas ring select edge bucketInfo pre i) ↔
      ∃ key, RecordedAs ring edge bucketInfo recorded key m ∧
        [slash].intercalate (pathElements pre) <+: cleanObjectKey key := by
  constructor
  · rintro ⟨i, hi, hm⟩
    have hi' := List.mem_range'_1.mp hi
    obtain ⟨key, hrec, hbegins, -⟩ := ((slotMetas_exact h hpre (by omega)).2.2 m).mp hm
    exact ⟨key, hrec, hbegins⟩
  · rintro ⟨key, hrec, hbegins⟩
    obtain ⟨hlo, hhi⟩ := calculateSlot_bounds h.mapper h.slots key
    obtain ⟨i, hi⟩ := Int.eq_ofNat_of_zero_le
      (show 0 ≤ (calculateSlot ring key bucketInfo.config.keySlotNum).toInt by omega)
    refine ⟨i, List.mem_range'_1.mpr (by omega), ?_⟩
    refine ((slotMetas_exact h hpre (by omega)).2.2 m).mpr ⟨key, hrec, hbegins, .inl ?_⟩
    rw [← Int32.ofInt_eq_ofNat, ← hi, Int32.ofInt_toInt]

/-- A key that begins with the prefix begins with its cleaned form. -/
theorem cleaned_of_begins {key : Bytes} (hkey : ProperKey key) (h : pre <+: cleanObjectKey key) :
    [slash].intercalate (pathElements pre) <+: cleanObjectKey key := by
  rw [cleanObjectKey_eq hkey.elements_ne_nil] at h ⊢
  exact Path.intercalate_elements_of_begins (fun e he => (hkey.names e he).toIsElement) h

/-- With the largest number of slots the loop does not end. -/
theorem listFrom_unbounded (hmax : bucketInfo.config.keySlotNum = Int32.maxValue) (fuel i : ℕ)
    (result metas : List ObjectMeta) :
    listFrom ring select edge bucketInfo pre fuel i result ≠ some (.ok metas) := by
  induction fuel generalizing i result with
  | zero => simp [listFrom]
  | succ fuel ih =>
    have hle : Int32.ofNat i ≤ bucketInfo.config.keySlotNum := by
      rw [hmax, Int32.le_iff_toInt_le]
      have := (Int32.ofNat i).toInt_lt
      have hval : Int32.maxValue.toInt = 2 ^ 31 - 1 := rfl
      omega
    rw [listFrom, if_pos hle]
    cases listSlot ring select edge bucketInfo pre i with
    | error e => simp
    | ok metas' => exact ih (i + 1) _

theorem listObjectsByEdge_eq (h : Ready ring select edge bucketInfo recorded)
    (hpre : Path.up dot ∉ pathElements pre)
    (hbounded : bucketInfo.config.keySlotNum < Int32.maxValue) {n : ℕ}
    (hn : bucketInfo.config.keySlotNum.toInt = n) {fuel : ℕ} (hfuel : n < fuel) :
    listObjectsByEdge ring select edge bucketInfo pre fuel =
      some (.ok ((List.range' 1 n).flatMap (slotMetas ring select edge bucketInfo pre))) := by
  have hmax : bucketInfo.config.keySlotNum.toInt < 2 ^ 31 - 1 := Int32.lt_iff_toInt_lt.mp hbounded
  rw [listObjectsByEdge, listFrom_eq hn (by omega)
    (fun j _ h2 => (slotMetas_exact h hpre (by omega)).1) le_rfl (by omega) (by omega)]
  simp

theorem lists_of_separated (h : Ready ring select edge bucketInfo recorded)
    (hpre : Path.up dot ∉ pathElements pre)
    (hsep : Separated ring select edge bucketInfo recorded pre) {n : ℕ}
    (hn : bucketInfo.config.keySlotNum.toInt = n) {fuel : ℕ} (hfuel : n < fuel) :
    Lists ring select edge bucketInfo recorded pre fuel := by
  refine ⟨_, listObjectsByEdge_eq h hpre hsep.bounded hn hfuel,
    List.nodup_flatMap.mpr ⟨fun i hi => ?_, ?_⟩, fun m => ?_⟩
  · have hi' := List.mem_range'_1.mp hi
    exact (slotMetas_exact h hpre (by omega)).2.1
  · refine (List.pairwise_lt_range' 1).imp_of_mem fun {i j} hi hj hlt => ?_
    have hi' := List.mem_range'_1.mp hi
    have hj' := List.mem_range'_1.mp hj
    exact disjoint_slotMetas h hpre hsep hi'.1 hlt (by omega)
  · rw [List.mem_flatMap, exists_slot_iff h hpre hn]
    constructor
    · rintro ⟨key, hrec, hbegins⟩
      exact ⟨key, hrec, hsep.cleaned key m hrec hbegins⟩
    · rintro ⟨key, hrec, hbegins⟩
      exact ⟨key, hrec, cleaned_of_begins hrec.1 hbegins⟩

theorem separated_of_lists (h : Ready ring select edge bucketInfo recorded)
    (hpre : Path.up dot ∉ pathElements pre) {n : ℕ}
    (hn : bucketInfo.config.keySlotNum.toInt = n) {fuel : ℕ} (hfuel : n < fuel)
    (hlists : Lists ring select edge bucketInfo recorded pre fuel) :
    Separated ring select edge bucketInfo recorded pre := by
  obtain ⟨metas, hlist, hnodup, hmem⟩ := hlists
  -- at the largest number the loop would not have ended
  have hbounded : bucketInfo.config.keySlotNum < Int32.maxValue := by
    by_contra hge
    refine listFrom_unbounded (Int32.toInt_inj.mp ?_) fuel 1 [] metas hlist
    rw [Int32.lt_iff_toInt_lt, Int.not_lt] at hge
    have := bucketInfo.config.keySlotNum.toInt_lt
    have hval : Int32.maxValue.toInt = 2 ^ 31 - 1 := rfl
    omega
  rw [listObjectsByEdge_eq h hpre hbounded hn hfuel] at hlist
  obtain rfl := Except.ok.inj (Option.some.inj hlist)
  refine ⟨hbounded, fun key m hrec hbegins => ?_, fun hnil key m hrec slot hlo hhi hstray => ?_⟩
  · obtain ⟨key', hrec', hbegins'⟩ := (hmem m).mp (List.mem_flatMap.mpr
      ((exists_slot_iff h hpre hn m).mpr ⟨key, hrec, hbegins⟩))
    rwa [cleanObjectKey_unique h hrec hrec']
  · -- the object is returned for its own slot and for this one
    have hone : (1 : Int32).toInt = 1 := rfl
    have hlo' := Int32.le_iff_toInt_le.mp hlo
    have hhi' := Int32.le_iff_toInt_le.mp hhi
    obtain ⟨hlo'', hhi''⟩ := calculateSlot_bounds h.mapper h.slots key
    have hempty : [slash].intercalate (pathElements pre) <+: cleanObjectKey key := by
      rw [hnil]
      exact List.nil_prefix
    have hat : ∀ t : Int32, 1 ≤ t.toInt → t.toInt ≤ n →
        (calculateSlot ring key bucketInfo.config.keySlotNum = t ∨
          pathElements pre = [] ∧ Strays ring select edge bucketInfo t key m) →
        t.toInt.toNat ∈ List.range' 1 n ∧
          m ∈ slotMetas ring select edge bucketInfo pre t.toInt.toNat := by
      intro t h1 h2 ht
      refine ⟨List.mem_range'_1.mpr (by omega), ?_⟩
      refine ((slotMetas_exact h hpre (by omega)).2.2 m).mpr ⟨key, hrec, hempty, ?_⟩
      rwa [← Int32.ofInt_eq_ofNat, Int.toNat_of_nonneg (by omega), Int32.ofInt_toInt]
    obtain ⟨hin, hm⟩ := hat slot (by omega) (by omega) (.inr ⟨hnil, hstray⟩)
    obtain ⟨hin', hm'⟩ := hat _ (by omega) (by omega) (.inl rfl)
    refine hstray.1 (Int32.toInt_inj.mp ?_)
    by_contra hne
    have hsymm : Std.Symm (Function.onFun List.Disjoint
        (slotMetas ring select edge bucketInfo pre)) := ⟨fun _ _ hij => hij.symm⟩
    exact (List.nodup_flatMap.mp hnodup).2.forall hin hin' (by omega) hm hm'

end Loop

/-- Listing is exact just where the prefix selects recorded keys as its cleaned form does and no
object strays into the request for another slot. -/
theorem lists_iff_separated (ring : Mapper) (select : Select) (edge : Edge)
    (bucketInfo : BucketInfo) (recorded : Recorded) (pre : Bytes)
    (h : Ready ring select edge bucketInfo recorded) (hpre : Path.up dot ∉ pathElements pre)
    (fuel : ℕ) (hfuel : bucketInfo.config.keySlotNum.toInt < fuel) :
    Lists ring select edge bucketInfo recorded pre fuel ↔
      Separated ring select edge bucketInfo recorded pre := by
  have hpos : 1 ≤ bucketInfo.config.keySlotNum.toInt := Int32.le_iff_toInt_le.mp h.slots
  obtain ⟨n, hn⟩ := Int.eq_ofNat_of_zero_le (show 0 ≤ bucketInfo.config.keySlotNum.toInt by omega)
  exact ⟨separated_of_lists h hpre hn (by omega), fun hsep =>
    lists_of_separated h hpre hsep hn (by omega)⟩

def lastGroup : Mapper := fun n _ => n

theorem inRange_lastGroup : InRange lastGroup := fun _ _ h => ⟨h, UInt64.le_refl _⟩

/-- The bucket `b` of the volume `v`. -/
def slotted (keySlotNum : Int32) : BucketInfo := ⟨[118], [98], [], { keySlotNum, blockSize := 4 }⟩

def single (keySlotNum : Int32) (key : Bytes) : ObjectMeta :=
  { objId := genObjectId lastGroup (slotted keySlotNum) key, objSize := 0, pgId := 1, blocks := [],
    term := 1 }

def recordedOne (m : ObjectMeta) : Recorded :=
  fun pg k => if pg = 1 ∧ k = m.objId then some m else none

def oneGroup : ClusterInfo where
  term := 1
  leaderInfo := none
  nodesInfo := [⟨1, [], [], 0, 0, .ONLINE⟩]
  metaPgNum := 1
  metaPgSize := 1
  blockPgNum := 1
  blockPgSize := 1
  lastTerm := 0

theorem genMetaPipelines_oneGroup :
    genMetaPipelines firstNodes oneGroup = [⟨1, [1], .RAFT, 1⟩] := rfl

def oneEdge (m : ObjectMeta) : Edge where
  clusterInfo := oneGroup
  alaya := fun _ => .ok ((∅ : Register).insert 1 ⟨(∅ : ByteMap ObjectMeta).insert m.objId m⟩)

theorem ready_single {keySlotNum : Int32} (hnum : 1 ≤ keySlotNum) {key : Bytes}
    (hkey : ProperKey key) :
    Ready lastGroup firstNodes (oneEdge (single keySlotNum key)) (slotted keySlotNum)
      (recordedOne (single keySlotNum key)) := by
  set m := single keySlotNum key with hm
  have hv : IsName [118] := by decide
  have hb : IsName [98] := by decide
  have hrec : ∀ {pg : UInt64} {k : Bytes} {m' : ObjectMeta}, recordedOne m pg k = some m' →
      pg = 1 ∧ k = m.objId ∧ m' = m := by
    intro pg k m' h
    unfold recordedOne at h
    split_ifs at h with hc
    exact ⟨hc.1, hc.2, (Option.some.inj h).symm⟩
  have hpipes : genMetaPipelines firstNodes (oneEdge m).clusterInfo = [⟨1, [1], .RAFT, 1⟩] :=
    genMetaPipelines_oneGroup
  refine ⟨inRange_lastGroup, hnum, hv, hb, ⟨fun pg k m' h => ?_, fun pg k m' h => ?_⟩,
    ⟨show (1 : Int32) ≤ 1 by decide, by rw [hpipes]; exact List.cons_ne_nil _ _, ?_, ?_, ?_⟩⟩
  · obtain ⟨rfl, rfl, rfl⟩ := hrec h
    exact ⟨slotted keySlotNum, key, hv, hb, hkey, fun _ => rfl, rfl, rfl⟩
  · obtain ⟨rfl, rfl, rfl⟩ := hrec h
    rfl
  · intro p hp
    rw [hpipes, List.mem_singleton] at hp
    rw [hp]
    exact List.cons_ne_nil _ _
  · intro p hp node _
    rw [hpipes, List.mem_singleton] at hp
    subst hp
    refine ⟨_, _, rfl, ExtTreeMap.getElem?_insert_self, fun k m' h => ?_⟩
    obtain ⟨-, rfl, rfl⟩ := hrec h
    exact ExtTreeMap.getElem?_insert_self
  · intro node register halaya pg storage hs k m' hk
    cases halaya
    rw [ExtTreeMap.getElem?_insert] at hs
    simp only [LawfulEqCmp.compare_eq_iff_eq, ExtTreeMap.getElem?_empty] at hs
    split_ifs at hs with hpg
    cases hs
    rw [ExtTreeMap.getElem?_insert] at hk
    simp only [LawfulEqCmp.compare_eq_iff_eq, ExtTreeMap.getElem?_empty] at hk
    split_ifs at hk with hid
    cases hk
    rw [recordedOne, if_pos ⟨hpg.symm, hid.symm⟩]

/-- The key `ab` is found by the prefix `a` in a bucket with twelve slots. -/
theorem listed_twelveSlots :
    Lists lastGroup firstNodes (oneEdge (single 12 [97, 98])) (slotted 12)
        (recordedOne (single 12 [97, 98])) [97] 13 ∧
      RecordedAs lastGroup (oneEdge (single 12 [97, 98])) (slotted 12)
        (recordedOne (single 12 [97, 98])) [97, 98] (single 12 [97, 98]) ∧
      [97] <+: cleanObjectKey [97, 98] := by
  have hkey : ProperKey [97, 98] := by decide
  have hsep : Separated lastGroup firstNodes (oneEdge (single 12 [97, 98])) (slotted 12)
      (recordedOne (single 12 [97, 98])) [97] := by
    refine ⟨by decide, fun key m _ h => ?_, fun h => absurd h (by decide)⟩
    exact h
  exact ⟨(lists_iff_separated lastGroup firstNodes (oneEdge (single 12 [97, 98])) (slotted 12)
    (recordedOne (single 12 [97, 98])) [97] (ready_single (by decide) hkey) (by decide) 13
    (by decide)).mpr hsep, ⟨hkey, rfl⟩, by decide⟩

/-- The request for slot 1 also finds what is in slot 10, and the prefix `a/` finds `ab`. -/
theorem listing_inexact :
    (Ready lastGroup firstNodes (oneEdge (single 10 [107])) (slotted 10)
        (recordedOne (single 10 [107])) ∧
      listObjectsByEdge lastGroup firstNodes (oneEdge (single 10 [107])) (slotted 10) [] 11 =
        some (.ok [single 10 [107], single 10 [107]])) ∧
      Ready lastGroup firstNodes (oneEdge (single 1 [97, 98])) (slotted 1)
        (recordedOne (single 1 [97, 98])) ∧
      listObjectsByEdge lastGroup firstNodes (oneEdge (single 1 [97, 98])) (slotted 1) [97, 47] 2 =
        some (.ok [single 1 [97, 98]]) ∧
      ¬ [97, 47] <+: cleanObjectKey [97, 98] := by
  exact ⟨⟨ready_single (by decide) (by decide), by decide +kernel⟩,
    ready_single (by decide) (by decide), by decide +kernel, by decide⟩

end Ecos.Client
