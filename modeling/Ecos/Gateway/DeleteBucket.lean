import Ecos.BlockReferences
import Ecos.Client.ListObjects

namespace Ecos.Gateway
open Go Logic Alaya Moon Client Std
open BlockReferences (addressed oneRing)

/-- `GetUserID` of a credential. -/
def getUserID : Bytes := ascii ['r', 'o', 'o', 't']

/-- A `deleteBucket` request that has not been answered. -/
structure Request where
  bucketName : Bytes
  bucketInfo : BucketInfo
  /-- the query parameter `prefix` -/
  pre : Bytes
  /-- the slot to list next -/
  slot : ℕ := 1
  listed : List ObjectMeta := []

structure System where
  /-- Moon's bucket storage -/
  moon : ByteMap BucketInfo
  /-- what it was before, which is what a node that lags behind still has -/
  past : List (ByteMap BucketInfo) := []
  register : Register
  /-- metas that have passed the check and are not recorded yet -/
  checked : List ObjectMeta := []
  requests : List Request := []
  /-- the buckets that `deleteBucket` has removed -/
  removed : List Bytes := []

def System.views (s : System) : List (ByteMap BucketInfo) := s.moon :: s.past

inductive Action where
  /-- `RecordObjectMeta` up to the proposal, on a node with this view, for the key of a bucket; the
  meta is given up to its ID and group -/
  | check (view : ℕ) (clientTerm : UInt64) (bucketInfo : BucketInfo) (key : Bytes)
      (objectMeta : ObjectMeta)
  | record (i : ℕ)
  | giveUp (i : ℕ)
  | deleteObject (objectMeta : ObjectMeta)
  /-- `deleteBucket` looks the bucket up -/
  | delete (view : ℕ) (bucketName pre : Bytes)
  | list (j : ℕ)
  | finish (j : ℕ)
  | fail (j : ℕ)

section Machine
variable (ring : Mapper) (select : Select) (info : ClusterInfo)

def envOf (moon : ByteMap BucketInfo) : AlayaEnv where
  getInfoDirect id := moon[id]?
  metaPgNumByTerm term := if term = info.term then some info.metaPgNum else none

def inGroup (node pg : UInt64) : Bool :=
  (genMetaPipelines select info)[(pg - 1).toNat]?.any fun p => node ∈ p.raftId

def edgeOf (register : Register) : Edge where
  clusterInfo := info
  alaya node := .ok (register.filter fun pg _ => inGroup select info node pg)

def step (s : System) : Action → Option System
  | .check view clientTerm bucketInfo key m => do
    let moon ← s.views[view]?
    let term ← (checkClientTerm info.term clientTerm).toOption
    let m ← (checkObject ring (envOf info moon) term (addressed ring bucketInfo key m)).toOption
    return { s with checked := m :: s.checked }
  | .record i => do
    let m ← s.checked[i]?
    match proposeObjectMetaOperate s.register m.pgId { operate := .PUT, objectMeta := m } with
    | .ok register => return { s with register := register, checked := s.checked.eraseIdx i }
    | .error _ => return { s with checked := s.checked.eraseIdx i }
  | .giveUp i => some { s with checked := s.checked.eraseIdx i }
  | .deleteObject m => do
    let register ← (deleteMeta s.register m).toOption
    return { s with register := register }
  | .delete view bucketName pre =>
    -- `parseBucket`
    if bucketName = [] then none
    else do
      let moon ← s.views[view]?
      let bucketInfo ← moon[genBucketID getUserID bucketName]?
      return { s with requests := { bucketName, bucketInfo, pre } :: s.requests }
  | .list j => do
    let r ← s.requests[j]?
    if Int32.ofNat r.slot ≤ r.bucketInfo.config.keySlotNum then
      match listSlot ring select (edgeOf select info s.register) r.bucketInfo r.pre r.slot with
      | .ok metas =>
        return { s with
          requests := s.requests.set j { r with slot := r.slot + 1, listed := r.listed ++ metas } }
      | .error _ => return { s with requests := s.requests.eraseIdx j }
    else none
  | .finish j => do
    let r ← s.requests[j]?
    if Int32.ofNat r.slot ≤ r.bucketInfo.config.keySlotNum then none
    else if r.listed ≠ [] then return { s with requests := s.requests.eraseIdx j }
    else
      -- the request panics on a nil info
      match genBucketInfo getUserID r.bucketName getUserID with
      | none => return { s with requests := s.requests.eraseIdx j }
      | some b => return { s with
          moon := s.moon.erase b.getID
          past := s.moon :: s.past
          requests := s.requests.eraseIdx j
          removed := if s.moon[b.getID]?.isSome then b.getID :: s.removed else s.removed }
  | .fail j => some { s with requests := s.requests.eraseIdx j }

end Machine

def bucketOfID (objectID : Bytes) : Option Bytes :=
  (splitID objectID).toOption.map SplitIDResult.bucketID

def Emptied (s : System) : Prop :=
  ∀ e ∈ recorded s.register, ∀ id ∈ s.removed, bucketOfID e.2.1 ≠ some id

instance decidableEmptied (s : System) : Decidable (Emptied s) :=
  inferInstanceAs (Decidable (∀ e ∈ recorded s.register, ∀ id ∈ s.removed,
    bucketOfID e.2.1 ≠ some id))

/-- A request lists everything, and no meta of its bucket is on its way from the moment it starts
until it ends. Metas have proper keys, are made from the current info of their bucket and are
checked on a node that does not lag behind. -/
def Orderly (s : System) : Action → Prop
  | .check view _ bucketInfo key _ => view = 0 ∧
      (IsName bucketInfo.volumeId ∧ IsName bucketInfo.bucketName ∧ ProperKey key) ∧
      (s.moon[bucketInfo.getID]? = none ∨ s.moon[bucketInfo.getID]? = some bucketInfo) ∧
      ∀ r ∈ s.requests, r.bucketInfo.getID ≠ bucketInfo.getID
  | .delete _ bucketName pre => IsName bucketName ∧ pathElements pre = [] ∧
      ∀ m ∈ s.checked, bucketOfID m.objId ≠ some (genBucketID getUserID bucketName)
  | _ => True

instance decidableOrderly (s : System) : ∀ a, Decidable (Orderly s a)
  | .check view _ bucketInfo key _ => inferInstanceAs (Decidable (view = 0 ∧
      (IsName bucketInfo.volumeId ∧ IsName bucketInfo.bucketName ∧ ProperKey key) ∧
      (s.moon[bucketInfo.getID]? = none ∨ s.moon[bucketInfo.getID]? = some bucketInfo) ∧
      ∀ r ∈ s.requests, r.bucketInfo.getID ≠ bucketInfo.getID))
  | .delete _ bucketName pre => inferInstanceAs (Decidable (IsName bucketName ∧
      pathElements pre = [] ∧
      ∀ m ∈ s.checked, bucketOfID m.objId ≠ some (genBucketID getUserID bucketName)))
  | .record _ | .giveUp _ | .deleteObject _ | .list _ | .finish _ | .fail _ => isTrue trivial

structure Healthy (ring : Mapper) (select : Select) (info : ClusterInfo) : Prop where
  mapper : InRange ring
  pgNum : 1 ≤ info.metaPgNum
  pipelines : genMetaPipelines select info ≠ []
  nodes : ∀ p ∈ genMetaPipelines select info, p.raftId ≠ []

/-- Buckets are stored under their IDs, with proper names and at least one slot. -/
def Named (buckets : Bytes → Option BucketInfo) : Prop :=
  ∀ (id : Bytes) (b : BucketInfo), buckets id = some b → b.getID = id ∧ IsName b.volumeId ∧
    IsName b.bucketName ∧ 1 ≤ b.config.keySlotNum

section Invariant
variable (ring : Mapper) (info : ClusterInfo) (buckets : Bytes → Option BucketInfo)

/-- The ID is that of an object with a proper key in a known bucket. -/
structure Object (b : BucketInfo) (key objectID : Bytes) (pg : UInt64) : Prop where
  known : buckets b.getID = some b
  proper : ProperKey key
  id : objectID = genObjectId ring b key
  group : pg = genObjPgID ring b key info.metaPgNum

structure Inv (s : System) : Prop where
  views : ∀ moon ∈ s.views, ∀ (id : Bytes) (b : BucketInfo), moon[id]? = some b → buckets id = some b
  gone : ∀ id ∈ s.removed, s.moon[id]? = none
  groups : ∀ pg : UInt64, s.register[pg]?.isSome ↔
    1 ≤ pg.toNat ∧ (pg.toNat : ℤ) ≤ info.metaPgNum.toInt
  recorded : ∀ (pg : UInt64) (k : Bytes) (m : ObjectMeta), (pg, k, m) ∈ Alaya.recorded s.register →
    m.objId = k ∧ ∃ b key, Object ring info buckets b key k pg ∧ b.getID ∉ s.removed
  checked : ∀ m ∈ s.checked, m.pgId = 0 ∨
    ∃ b key, Object ring info buckets b key m.objId m.pgId ∧ b.getID ∉ s.removed ∧
      ∀ r ∈ s.requests, r.bucketInfo.getID ≠ b.getID
  requests : ∀ r ∈ s.requests, buckets r.bucketInfo.getID = some r.bucketInfo ∧
    IsName r.bucketName ∧ r.bucketInfo.getID = genBucketID getUserID r.bucketName ∧
    pathElements r.pre = []
  /-- where nothing has been listed, the slots visited are empty -/
  visited : ∀ r ∈ s.requests, r.listed = [] → ∀ (pg : UInt64) (m : ObjectMeta) (key : Bytes),
    ProperKey key → (pg, genObjectId ring r.bucketInfo key, m) ∈ Alaya.recorded s.register →
    (r.slot : ℤ) ≤ (calculateSlot ring key r.bucketInfo.config.keySlotNum).toInt

end Invariant

section Steps
variable {ring : Mapper} {select : Select} {info : ClusterInfo}
  {buckets : Bytes → Option BucketInfo} {s : System}

theorem bucketOfID_genObjectId {b : BucketInfo} {key : Bytes} (hv : IsName b.volumeId)
    (hb : IsName b.bucketName) (hk : ProperKey key) :
    bucketOfID (genObjectId ring b key) = some b.getID := by
  rw [bucketOfID, splitID_genObjectId ring hv hb hk]
  rfl

theorem Object.bucketOfID (hn : Named buckets) {b : BucketInfo} {key objectID : Bytes} {pg : UInt64}
    (h : Object ring info buckets b key objectID pg) : bucketOfID objectID = some b.getID := by
  obtain ⟨-, hv, hb, -⟩ := hn _ b h.known
  rw [h.id, bucketOfID_genObjectId hv hb h.proper]

theorem Inv.emptied (hn : Named buckets) (h : Inv ring info buckets s) : Emptied s := by
  intro e he id hid heq
  obtain ⟨-, b, key, hobj, hnot⟩ := h.recorded e.1 e.2.1 e.2.2 he
  rw [hobj.bucketOfID hn] at heq
  exact hnot (Option.some.inj heq ▸ hid)

/-- Giving up changes nothing else. -/
theorem Inv.of_sublist {cs : List ObjectMeta} {rs : List Request} (h : Inv ring info buckets s)
    (hc : cs ⊆ s.checked) (hr : rs ⊆ s.requests) :
    Inv ring info buckets { s with checked := cs, requests := rs } where
  views := h.views
  gone := h.gone
  groups := h.groups
  recorded := h.recorded
  checked m hm := by
    rcases h.checked m (hc hm) with h0 | ⟨b, key, hobj, hnot, hreq⟩
    · exact .inl h0
    · exact .inr ⟨b, key, hobj, hnot, fun r hmem => hreq r (hr hmem)⟩
  requests r hmem := h.requests r (hr hmem)
  visited r hmem := h.visited r (hr hmem)

/-- A meta that passes the check belongs to a bucket that exists, or to the group 0. -/
theorem object_of_check (h : Inv ring info buckets s) {b : BucketInfo} {key : Bytes}
    {m m' : ObjectMeta} (hv : IsName b.volumeId) (hb : IsName b.bucketName) (hkey : ProperKey key)
    (hmoon : s.moon[b.getID]? = none ∨ s.moon[b.getID]? = some b)
    (hcheck : checkObject ring (envOf info s.moon) info.term (addressed ring b key m) = .ok m') :
    m'.pgId = 0 ∨ Object ring info buckets b key m'.objId m'.pgId ∧ b.getID ∉ s.removed := by
  have hclean : cleanObjectKey (genObjectId ring b key) = genObjectId ring b key := by
    rw [genObjectId_of_proper hv hb hkey]
    exact cleanObjectKey_names (by simp [bucketElements]) (isName_append_key hv hb _ hkey)
  unfold checkObject at hcheck
  simp only [addressed, hclean] at hcheck
  split_ifs at hcheck with hpg
  obtain rfl := Except.ok.inj hcheck
  rcases hmoon with hmoon | hmoon
  · refine .inl ?_
    rw [not_ne_iff.mp hpg, calculateObjectPGID, splitID_genObjectId ring hv hb hkey]
    simp only [envOf, hmoon]
  · refine .inr ⟨⟨h.views s.moon List.mem_cons_self _ _ hmoon, hkey, rfl, ?_⟩, fun hmem => ?_⟩
    · rw [not_ne_iff.mp hpg]
      exact calculateObjectPGID_genObjectId ring hv hb hkey _ _ _ hmoon (if_pos rfl)
    · rw [h.gone _ hmem] at hmoon
      cases hmoon

theorem inv_check (h : Inv ring info buckets s) {b : BucketInfo} {key : Bytes} {m m' : ObjectMeta}
    (hv : IsName b.volumeId) (hb : IsName b.bucketName) (hkey : ProperKey key)
    (hmoon : s.moon[b.getID]? = none ∨ s.moon[b.getID]? = some b)
    (hreq : ∀ r ∈ s.requests, r.bucketInfo.getID ≠ b.getID)
    (hcheck : checkObject ring (envOf info s.moon) info.term (addressed ring b key m) = .ok m') :
    Inv ring info buckets { s with checked := m' :: s.checked } where
  views := h.views
  gone := h.gone
  groups := h.groups
  recorded := h.recorded
  checked x hx := by
    rcases List.mem_cons.mp hx with rfl | hx
    · rcases object_of_check h hv hb hkey hmoon hcheck with h0 | ⟨hobj, hnot⟩
      · exact .inl h0
      · exact .inr ⟨b, key, hobj, hnot, hreq⟩
    · exact h.checked x hx
  requests := h.requests
  visited := h.visited

/-- A meta is recorded under a bucket that is not being deleted. -/
theorem inv_record (hn : Named buckets) (h : Inv ring info buckets s) {m : ObjectMeta}
    (hm : m ∈ s.checked) {register : Register}
    (hput : proposeObjectMetaOperate s.register m.pgId { operate := .PUT, objectMeta := m } =
      .ok register) : Inv ring info buckets { s with register := register } := by
  have hobject : ∃ b key, Object ring info buckets b key m.objId m.pgId ∧ b.getID ∉ s.removed ∧
      ∀ r ∈ s.requests, r.bucketInfo.getID ≠ b.getID := by
    rcases h.checked m hm with h0 | hobj
    · -- there is no group 0
      have hnone : s.register[m.pgId]? = none := by
        have h0' := h.groups 0
        rw [h0, Option.eq_none_iff_forall_not_mem]
        intro storage hs
        exact absurd (h0'.mp (by rw [hs]; rfl)).1 (by decide)
      rw [proposeObjectMetaOperate, hnone] at hput
      cases hput
    · exact hobj
  obtain ⟨b, key, hobj, hnot, hreq⟩ := hobject
  refine ⟨h.views, h.gone, fun pg => ?_, fun pg k x hx => ?_, h.checked, h.requests,
    fun r hr hlisted pg x key' hkey' hx => ?_⟩
  · rw [isSome_propose hput]
    exact h.groups pg
  · rcases recorded_put_cases hput hx with ⟨rfl, rfl, rfl⟩ | hold
    · exact ⟨rfl, b, key, hobj, hnot⟩
    · exact h.recorded pg k x hold
  · rcases recorded_put_cases hput hx with ⟨-, hid, -⟩ | hold
    · obtain ⟨-, hv, hb, -⟩ := hn _ r.bucketInfo (h.requests r hr).1
      refine absurd ?_ (hreq r hr)
      have hbucket : bucketOfID (genObjectId ring r.bucketInfo key') = some r.bucketInfo.getID :=
        bucketOfID_genObjectId hv hb hkey'
      rw [hid, hobj.bucketOfID hn] at hbucket
      exact (Option.some.inj hbucket).symm
    · exact h.visited r hr hlisted pg x key' hkey' hold

theorem inv_deleteObject (h : Inv ring info buckets s) {m : ObjectMeta} {register : Register}
    (hdel : deleteMeta s.register m = .ok register) :
    Inv ring info buckets { s with register := register } where
  views := h.views
  gone := h.gone
  groups pg := by
    rw [isSome_propose hdel]
    exact h.groups pg
  recorded pg k x hx := h.recorded pg k x (recorded_deleteMeta hdel hx).2
  checked := h.checked
  requests := h.requests
  visited r hr hlisted pg x key hkey hx :=
    h.visited r hr hlisted pg x key hkey (recorded_deleteMeta hdel hx).2

/-- A request starts while no meta of the bucket is on its way. -/
theorem inv_delete (hmap : InRange ring) (hn : Named buckets) (h : Inv ring info buckets s)
    {moon : ByteMap BucketInfo} (hmoon : moon ∈ s.views) {bucketName pre : Bytes}
    {bucketInfo : BucketInfo} (hget : moon[genBucketID getUserID bucketName]? = some bucketInfo)
    (hname : IsName bucketName) (hpre : pathElements pre = [])
    (hchecked : ∀ m ∈ s.checked, bucketOfID m.objId ≠ some (genBucketID getUserID bucketName)) :
    Inv ring info buckets
      { s with requests := { bucketName, bucketInfo, pre } :: s.requests } := by
  have hknown := h.views moon hmoon _ bucketInfo hget
  obtain ⟨hid, -, -, hslots⟩ := hn _ bucketInfo hknown
  refine ⟨h.views, h.gone, h.groups, h.recorded, fun m hm => ?_, fun r hr => ?_,
    fun r hr hlisted pg x key hkey hx => ?_⟩
  · rcases h.checked m hm with h0 | ⟨b, key, hobj, hnot, hreq⟩
    · exact .inl h0
    · refine .inr ⟨b, key, hobj, hnot, fun r hr => ?_⟩
      rcases List.mem_cons.mp hr with rfl | hr
      · intro heq
        refine hchecked m hm ?_
        rw [hobj.bucketOfID hn, ← heq, ← hid]
      · exact hreq r hr
  · rcases List.mem_cons.mp hr with rfl | hr
    · exact ⟨by rw [hid]; exact hknown, hname, hid, hpre⟩
    · exact h.requests r hr
  · rcases List.mem_cons.mp hr with rfl | hr
    · exact (calculateSlot_bounds hmap hslots key).1
    · exact h.visited r hr hlisted pg x key hkey hx

def recordedIn (register : Register) : Recorded :=
  fun pg k => register[pg]?.bind fun storage => storage.metaMap[k]?

theorem recordedIn_eq_some {register : Register} {pg : UInt64} {k : Bytes} {m : ObjectMeta} :
    recordedIn register pg k = some m ↔ (pg, k, m) ∈ Alaya.recorded register := by
  rw [recordedIn, Option.bind_eq_some_iff, mem_recorded]

/-- A bucket can be listed. -/
theorem ready_of_inv (hh : Healthy ring select info) (hn : Named buckets)
    (h : Inv ring info buckets s) {b : BucketInfo} (hb : buckets b.getID = some b) :
    Ready ring select (edgeOf select info s.register) b (recordedIn s.register) := by
  obtain ⟨-, hv, hname, hslots⟩ := hn _ b hb
  refine ⟨hh.mapper, hslots, hv, hname, ⟨fun pg k m hm => ?_, fun pg k m hm => ?_⟩,
    ⟨hh.pgNum, hh.pipelines, hh.nodes, fun p hp node hnode => ?_, ?_⟩⟩
  · obtain ⟨-, b', key, hobj, -⟩ := h.recorded pg k m (recordedIn_eq_some.mp hm)
    obtain ⟨-, hv', hname', -⟩ := hn _ b' hobj.known
    refine ⟨b', key, hv', hname', hobj.proper, fun heq => ?_, hobj.id, hobj.group⟩
    have hknown := hobj.known
    rw [heq, hb] at hknown
    exact (Option.some.inj hknown).symm
  · exact (h.recorded pg k m (recordedIn_eq_some.mp hm)).1
  · change p ∈ genMetaPipelines select info at hp
    obtain ⟨hpos, hle, hindex⟩ := getElem?_pgId_of_mem hp
    have hnum := toNat_pgNum hh.pgNum
    obtain ⟨storage, hs⟩ := Option.isSome_iff_exists.mp
      ((h.groups p.pgId).mpr ⟨hpos, by omega⟩)
    refine ⟨_, storage, rfl, ?_, fun k m hm => ?_⟩
    · have hin : inGroup select info node p.pgId = true := by
        rw [inGroup, genMetaPipelines, hindex]
        simpa using hnode
      rw [ExtTreeMap.getElem?_filter', hs, Option.filter_some, if_pos hin]
    · rw [recordedIn, hs] at hm
      exact hm
  · intro node register halaya pg storage hs k m hk
    cases halaya
    rw [ExtTreeMap.getElem?_filter', Option.filter_eq_some_iff] at hs
    exact recordedIn_eq_some.mpr (mem_recorded.mpr ⟨storage, hs.1, hk⟩)

/-- An ID that is recorded stands in the group of its key. -/
theorem recordedAs_of_mem (hn : Named buckets) (h : Inv ring info buckets s) {b : BucketInfo}
    (hb : buckets b.getID = some b) {key : Bytes} (hkey : ProperKey key) {pg : UInt64}
    {m : ObjectMeta} (hm : (pg, genObjectId ring b key, m) ∈ Alaya.recorded s.register) :
    RecordedAs ring (edgeOf select info s.register) b (recordedIn s.register) key m := by
  obtain ⟨-, b', key', hobj, -⟩ := h.recorded pg _ m hm
  obtain ⟨-, hv, hname, -⟩ := hn _ b hb
  obtain ⟨-, hv', hname', -⟩ := hn _ b' hobj.known
  obtain ⟨hvol, hbucket, hclean⟩ :=
    genObjectId_injective ring hv hname hv' hname' hkey hobj.proper hobj.id
  have hsame : b' = b := by
    have hknown := hobj.known
    rw [BucketInfo.getID, ← hvol, ← hbucket, ← BucketInfo.getID, hb] at hknown
    exact (Option.some.inj hknown).symm
  have hpg : pg = genObjPgID ring b key info.metaPgNum := by
    rw [hobj.group, hsame, genObjPgID, genObjPgID, hclean]
  exact ⟨hkey, recordedIn_eq_some.mpr (hpg ▸ hm)⟩

/-- A slot that lists nothing is empty. -/
theorem inv_list (hh : Healthy ring select info) (hn : Named buckets)
    (h : Inv ring info buckets s) {j : ℕ} {r : Request} (hj : s.requests[j]? = some r)
    {metas : List ObjectMeta} (hlist : listSlot ring select (edgeOf select info s.register)
      r.bucketInfo r.pre r.slot = .ok metas) :
    Inv ring info buckets { s with
      requests := s.requests.set j { r with slot := r.slot + 1, listed := r.listed ++ metas } } := by
  have hr := List.mem_of_getElem? hj
  obtain ⟨hknown, -, -, hpre⟩ := h.requests r hr
  refine ⟨h.views, h.gone, h.groups, h.recorded, fun m hm => ?_, fun r' hr' => ?_,
    fun r' hr' hlisted pg m key hkey hm => ?_⟩
  · rcases h.checked m hm with h0 | ⟨b, key, hobj, hnot, hreq⟩
    · exact .inl h0
    · refine .inr ⟨b, key, hobj, hnot, fun r' hr' => ?_⟩
      rcases List.mem_or_eq_of_mem_set hr' with hr' | rfl
      · exact hreq r' hr'
      · exact hreq r hr
  · rcases List.mem_or_eq_of_mem_set hr' with hr' | rfl
    · exact h.requests r' hr'
    · exact h.requests r hr
  · rcases List.mem_or_eq_of_mem_set hr' with hr' | rfl
    · exact h.visited r' hr' hlisted pg m key hkey hm
    · obtain ⟨hnone, rfl⟩ := List.append_eq_nil_iff.mp hlisted
      have hle := h.visited r hr hnone pg m key hkey hm
      -- an object of this slot would have been listed
      have hne : (calculateSlot ring key r.bucketInfo.config.keySlotNum).toInt ≠ r.slot := by
        intro heq
        have hin : Answered ring select (edgeOf select info s.register) r.bucketInfo
            (recordedIn s.register) r.pre
            (calculateSlot ring key r.bucketInfo.config.keySlotNum) key m :=
          ⟨recordedAs_of_mem hn h hknown hkey hm, by simp [hpre], .inl rfl⟩
        have hup : Path.up dot ∉ pathElements r.pre := by simp [hpre]
        obtain ⟨metas, hmetas, -, hmem⟩ := listSlot_exact (ready_of_inv hh hn h hknown) hup heq
        rw [hlist] at hmetas
        cases hmetas
        exact List.not_mem_nil ((hmem m).mpr ⟨key, hin⟩)
      push_cast
      omega

theorem pathClean_of_isName {e : Bytes} (he : IsName e) : pathClean e = e := by
  have hr : Path.render slash dot false [e] = e := by simp [Path.render]
  have hn : Path.Normal slash dot false [e] := ⟨0, [e], rfl, by simpa using he, fun _ => rfl⟩
  have hclean := Path.clean_render slash_ne_dot hn
  rw [hr] at hclean
  exact hclean

theorem isName_getUserID : IsName getUserID := by decide

/-- The bucket that is deleted is the one that was listed. -/
theorem getID_of_genBucketInfo {bucketName : Bytes} (hname : IsName bucketName) {b : BucketInfo}
    (h : genBucketInfo getUserID bucketName getUserID = some b) :
    b.getID = genBucketID getUserID bucketName := by
  unfold genBucketInfo at h
  rw [pathClean_of_isName hname, pathClean_of_isName isName_getUserID] at h
  split_ifs at h
  obtain rfl := Option.some.inj h
  rfl

/-- Once all slots are visited and nothing is listed, nothing is recorded in the bucket. -/
theorem not_recorded_of_visited (hh : Healthy ring select info) (hn : Named buckets)
    (h : Inv ring info buckets s) {r : Request} (hr : r ∈ s.requests) (hlisted : r.listed = [])
    (hend : ¬ Int32.ofNat r.slot ≤ r.bucketInfo.config.keySlotNum) {pg : UInt64} {k : Bytes}
    {m : ObjectMeta} (hm : (pg, k, m) ∈ Alaya.recorded s.register) {b : BucketInfo} {key : Bytes}
    (hobj : Object ring info buckets b key k pg) : b.getID ≠ r.bucketInfo.getID := by
  intro heq
  have hknown := (h.requests r hr).1
  obtain ⟨-, -, -, hslots⟩ := hn _ r.bucketInfo hknown
  have hsame : b = r.bucketInfo := by
    have hb := hobj.known
    rw [heq, hknown] at hb
    exact (Option.some.inj hb).symm
  have hle := h.visited r hr hlisted pg m key hobj.proper (by rw [← hsame, ← hobj.id]; exact hm)
  obtain ⟨-, hhi⟩ := calculateSlot_bounds hh.mapper hslots key
  have hmax := r.bucketInfo.config.keySlotNum.toInt_lt
  rw [Int32.le_iff_toInt_le, Int32.toInt_ofNat_of_lt (by omega)] at hend
  omega

theorem inv_finish (hh : Healthy ring select info) (hn : Named buckets)
    (h : Inv ring info buckets s) {j : ℕ} {r : Request} (hj : s.requests[j]? = some r)
    (hlisted : r.listed = []) (hend : ¬ Int32.ofNat r.slot ≤ r.bucketInfo.config.keySlotNum)
    {removed : List Bytes} (hremoved : ∀ id ∈ removed, id = r.bucketInfo.getID ∨ id ∈ s.removed) :
    Inv ring info buckets { s with
      moon := s.moon.erase r.bucketInfo.getID, past := s.moon :: s.past,
      requests := s.requests.eraseIdx j, removed := removed } := by
  have hr := List.mem_of_getElem? hj
  have hsub : s.requests.eraseIdx j ⊆ s.requests := (List.eraseIdx_sublist _ _).subset
  have herase : ∀ {id : Bytes} {b : BucketInfo}, (s.moon.erase r.bucketInfo.getID)[id]? = some b →
      s.moon[id]? = some b := by
    intro id b hb
    rw [ExtTreeMap.getElem?_erase] at hb
    split_ifs at hb
    exact hb
  refine ⟨fun moon hmoon id b hb => ?_, fun id hid => ?_, h.groups, fun pg k m hm => ?_,
    fun m hm => ?_, fun r' hr' => h.requests r' (hsub hr'),
    fun r' hr' => h.visited r' (hsub hr')⟩
  · rcases List.mem_cons.mp hmoon with rfl | hmoon
    · exact h.views s.moon List.mem_cons_self id b (herase hb)
    · exact h.views moon hmoon id b hb
  · rcases hremoved id hid with rfl | hid
    · exact ExtTreeMap.getElem?_erase_self
    · rw [Option.eq_none_iff_forall_not_mem]
      intro b hb
      have hold := herase hb
      rw [h.gone id hid] at hold
      cases hold
  · obtain ⟨hid, b, key, hobj, hnot⟩ := h.recorded pg k m hm
    refine ⟨hid, b, key, hobj, fun hmem => ?_⟩
    rcases hremoved _ hmem with heq | hmem
    · exact not_recorded_of_visited hh hn h hr hlisted hend hm hobj heq
    · exact hnot hmem
  · rcases h.checked m hm with h0 | ⟨b, key, hobj, hnot, hreq⟩
    · exact .inl h0
    · refine .inr ⟨b, key, hobj, fun hmem => ?_, fun r' hr' => hreq r' (hsub hr')⟩
      rcases hremoved _ hmem with heq | hmem
      · exact hreq r hr heq.symm
      · exact hnot hmem

theorem term_of_checkClientTerm {current clientTerm term : UInt64}
    (h : checkClientTerm current clientTerm = .ok term) : term = current := by
  unfold checkClientTerm at h
  split_ifs at h with hne
  rw [← Except.ok.inj h]
  exact not_ne_iff.mp hne

theorem inv_step (hh : Healthy ring select info) (hn : Named buckets) {a : Action} {s' : System}
    (h : Inv ring info buckets s) (hg : Orderly s a)
    (hs : step ring select info s a = some s') : Inv ring info buckets s' := by
  cases a with
  | check view clientTerm bucketInfo key m =>
    obtain ⟨rfl, ⟨hv, hb, hkey⟩, hmoon', hreq⟩ := hg
    simp only [step, Option.bind_eq_bind, Option.bind_eq_some_iff] at hs
    obtain ⟨moon, hmoon, term, hterm, m', hcheck, hs⟩ := hs
    obtain rfl : s.moon = moon := Option.some.inj hmoon
    obtain rfl := term_of_checkClientTerm (toOption_eq_some hterm)
    cases hs
    exact inv_check h hv hb hkey hmoon' hreq (toOption_eq_some hcheck)
  | record i =>
    simp only [step, Option.bind_eq_bind, Option.bind_eq_some_iff] at hs
    obtain ⟨m, hm, hs⟩ := hs
    have hsub : s.checked.eraseIdx i ⊆ s.checked := (List.eraseIdx_sublist _ _).subset
    split at hs <;> cases hs
    · next register hput =>
        exact (inv_record hn h (List.mem_of_getElem? hm) hput).of_sublist hsub
          (List.Subset.refl s.requests)
    · exact h.of_sublist hsub (List.Subset.refl _)
  | giveUp i =>
    cases hs
    exact h.of_sublist (List.eraseIdx_sublist _ _).subset (List.Subset.refl _)
  | deleteObject m =>
    simp only [step, Option.bind_eq_bind, Option.bind_eq_some_iff] at hs
    obtain ⟨register, hdel, hs⟩ := hs
    cases hs
    exact inv_deleteObject h (toOption_eq_some hdel)
  | delete view bucketName pre =>
    obtain ⟨hname, hpre, hchecked⟩ := hg
    simp only [step] at hs
    split_ifs at hs
    simp only [Option.bind_eq_bind, Option.bind_eq_some_iff] at hs
    obtain ⟨moon, hmoon, bucketInfo, hget, hs⟩ := hs
    cases hs
    exact inv_delete hh.mapper hn h (List.mem_of_getElem? hmoon) hget hname hpre hchecked
  | list j =>
    simp only [step, Option.bind_eq_bind, Option.bind_eq_some_iff] at hs
    obtain ⟨r, hj, hs⟩ := hs
    split_ifs at hs
    split at hs <;> cases hs
    · next metas hlist => exact inv_list hh hn h hj hlist
    · exact h.of_sublist (List.Subset.refl _) (List.eraseIdx_sublist _ _).subset
  | finish j =>
    simp only [step, Option.bind_eq_bind, Option.bind_eq_some_iff] at hs
    obtain ⟨r, hj, hs⟩ := hs
    have hdrop : Inv ring info buckets { s with requests := s.requests.eraseIdx j } :=
      h.of_sublist (List.Subset.refl _) (List.eraseIdx_sublist _ _).subset
    split_ifs at hs with hend hlisted
    · cases hs
      exact hdrop
    · split at hs <;> cases hs
      · exact hdrop
      · next b hb =>
          obtain ⟨-, hname, hid, -⟩ := h.requests r (List.mem_of_getElem? hj)
          have hsame : b.getID = r.bucketInfo.getID := by
            rw [getID_of_genBucketInfo hname hb, hid]
          rw [hsame]
          refine inv_finish hh hn h hj (not_ne_iff.mp hlisted) hend fun id hmem => ?_
          split_ifs at hmem
          · exact List.mem_cons.mp hmem
          · exact .inr hmem
  | fail j =>
    cases hs
    exact h.of_sublist (List.Subset.refl _) (List.eraseIdx_sublist _ _).subset

end Steps

/-- The storages of all groups are there and empty, and no request is under way. -/
structure Fresh (info : ClusterInfo) (s : System) : Prop where
  named : Named fun id => s.moon[id]?
  groups : ∀ pg : UInt64, s.register[pg]?.isSome ↔
    1 ≤ pg.toNat ∧ (pg.toNat : ℤ) ≤ info.metaPgNum.toInt
  empty : Alaya.recorded s.register = []
  idle : s.past = [] ∧ s.checked = [] ∧ s.requests = [] ∧ s.removed = []

theorem inv_fresh {ring : Mapper} {info : ClusterInfo} {s : System} (h : Fresh info s) :
    Inv ring info (fun id => s.moon[id]?) s := by
  obtain ⟨hpast, hchecked, hrequests, hremoved⟩ := h.idle
  refine ⟨fun moon hmoon id b hb => ?_, ?_, h.groups, ?_, ?_, ?_, ?_⟩
  · rw [System.views, hpast, List.mem_singleton] at hmoon
    rw [← hmoon]
    exact hb
  · simp [hremoved]
  · simp [h.empty]
  · simp [hchecked]
  · simp [hrequests]
  · simp [hrequests]

/-- In every state that orderly requests lead to, a removed bucket is empty. -/
theorem emptied_of_orderly (ring : Mapper) (select : Select) (info : ClusterInfo)
    (hh : Healthy ring select info) (s : System) (hs : Fresh info s) (as : List Action)
    (hg : Meets (step ring select info) Orderly s as) (s' : System)
    (hr : run (step ring select info) s as = some s') : Emptied s' :=
  (run_invariant (fun _ _ _ h hg => inv_step hh hs.named h hg) (inv_fresh hs) hg hr).emptied
    hs.named

/-- The bucket `b` of the user, with one slot. -/
def rootBucket : BucketInfo := ⟨getUserID, [98], [], { keySlotNum := 1, blockSize := 4 }⟩

def start : System where
  moon := (∅ : ByteMap BucketInfo).insert rootBucket.getID rootBucket
  register := (∅ : Register).insert 1 .empty

def noBlocks : ObjectMeta := { objId := [], objSize := 0, pgId := 0, blocks := [], term := 1 }

/-- `putObject` of the key `k` up to the proposal. -/
def putK (view : ℕ) : Action := .check view 1 rootBucket [107] noBlocks

theorem healthy_oneGroup : Healthy oneRing firstNodes oneGroup where
  mapper _ _ h := ⟨UInt64.le_refl _, h⟩
  pgNum := by decide
  pipelines := by
    rw [genMetaPipelines_oneGroup]
    exact List.cons_ne_nil _ _
  nodes p hp := by
    rw [genMetaPipelines_oneGroup, List.mem_singleton] at hp
    rw [hp]
    exact List.cons_ne_nil _ _

theorem fresh_start : Fresh oneGroup start where
  named id b hb := by
    simp only [start, ExtTreeMap.getElem?_insert, LawfulEqCmp.compare_eq_iff_eq,
      ExtTreeMap.getElem?_empty] at hb
    split_ifs at hb with hid
    obtain rfl := Option.some.inj hb
    exact ⟨hid, by decide, by decide, by decide⟩
  groups pg := by
    have hone : oneGroup.metaPgNum.toInt = 1 := rfl
    have hpg : (1 : UInt64) = pg ↔ pg.toNat = 1 := by
      rw [← UInt64.toNat_inj, eq_comm]
      rfl
    rw [start, ExtTreeMap.getElem?_insert, ExtTreeMap.getElem?_empty]
    simp only [LawfulEqCmp.compare_eq_iff_eq, hpg, hone]
    split_ifs with h
    · simp [h]
    · simp only [Option.isSome_none, Bool.false_eq_true, false_iff]
      omega
  empty := by decide +kernel
  idle := ⟨rfl, rfl, rfl, rfl⟩

def orderlyRun : List Action :=
  [putK 0, .record 0, .delete 0 [98] [], .list 0, .finish 0,
    .deleteObject { addressed oneRing rootBucket [107] noBlocks with pgId := 1 },
    .delete 0 [98] [], .list 0, .finish 0]

theorem emptied_orderlyRun : ∃ s, run (step oneRing firstNodes oneGroup) start orderlyRun = some s ∧
    s.removed = [rootBucket.getID] ∧ Emptied s := by
  have hrun : (run (step oneRing firstNodes oneGroup) start orderlyRun).map System.removed =
      some [rootBucket.getID] := by decide +kernel
  obtain ⟨s, hs, hremoved⟩ := Option.map_eq_some_iff.mp hrun
  exact ⟨s, hs, hremoved, emptied_of_orderly oneRing firstNodes oneGroup healthy_oneGroup start
    fresh_start orderlyRun (by decide +kernel) s hs⟩

/-- After this run the bucket is gone and an object of it is there. -/
def LeavesObject (as : List Action) : Prop :=
  ∃ s, run (step oneRing firstNodes oneGroup) start as = some s ∧ ¬ Emptied s

theorem leavesObject_of_run {as : List Action}
    (h : (run (step oneRing firstNodes oneGroup) start as).map (fun s => decide (Emptied s)) =
      some false) : LeavesObject as := by
  obtain ⟨s, hs, hnot⟩ := Option.map_eq_some_iff.mp h
  exact ⟨s, hs, of_decide_eq_false hnot⟩

/-- A bucket with an object is removed by a request with a prefix, by one that starts after the
check of the object or lists before it, and the object may be checked on a node that lags behind. -/
theorem removed_with_object :
    LeavesObject [putK 0, .record 0, .delete 0 [98] [120], .list 0, .finish 0] ∧
      LeavesObject [putK 0, .delete 0 [98] [], .list 0, .finish 0, .record 0] ∧
      LeavesObject [.delete 0 [98] [], .list 0, putK 0, .record 0, .finish 0] ∧
      LeavesObject [.delete 0 [98] [], .list 0, .finish 0, putK 1, .record 0] :=
  ⟨leavesObject_of_run (by decide +kernel), leavesObject_of_run (by decide +kernel),
    leavesObject_of_run (by decide +kernel), leavesObject_of_run (by decide +kernel)⟩

end Ecos.Gateway
