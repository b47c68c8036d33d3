import Ecos.Alaya.Replication

namespace Ecos.Alaya.Replication
open Go Logic Std

section
variable {β : Type} {ring : Mapper} {a : AlayaEnv} {marshal : ObjectMeta → Bytes}
  {unmarshal : Bytes → Except Errno ObjectMeta} {codec : Codec CfContent β}
  {head start : UInt64 → UInt64} {s s' : Group β} {node : UInt64}

structure Kept (m m' : Member) : Prop where
  applied : m'.applied = m.applied
  installed : m'.installed = m.installed
  storage : m'.metaNode.storage = m.metaNode.storage
  released : m'.metaNode.released ⊆ m.metaNode.released

theorem Kept.refl (m : Member) : Kept m m := ⟨rfl, rfl, rfl, List.Subset.refl _⟩

theorem kept_setMember {m : Member} (hm : Kept (s.members node) m) (n : UInt64) :
    Kept (s.members n) ((s.setMember node m).members n) :=
  forall_setMember (P := fun n m => Kept (s.members n) m) hm (fun _ => Kept.refl _) n

theorem operateCall_written (storage : RocksDBMetaStorage) (o : MetaOperate) :
    (storage.operateCall marshal o {}).1 = storage.operate marshal o := by
  unfold RocksDBMetaStorage.operateCall RocksDBMetaStorage.operate
  cases o.operate <;> rfl

theorem Recalls.append {log : List MetaOperate} {p : ℕ} {storage : RocksDBMetaStorage}
    (h : Recalls marshal log p storage) (hp : p ≤ log.length) (more : List MetaOperate) :
    Recalls marshal (log ++ more) p storage := by
  intro k
  obtain ⟨q, hq, hk⟩ := h k
  exact ⟨q, hq, by rw [storageAt, stateAt_append (hq.trans hp)]; exact hk⟩

theorem Recalls.mono {log : List MetaOperate} {p p' : ℕ} {storage : RocksDBMetaStorage}
    (h : Recalls marshal log p storage) (hp : p ≤ p') : Recalls marshal log p' storage := by
  intro k
  obtain ⟨q, hq, hk⟩ := h k
  exact ⟨q, hq.trans hp, hk⟩

theorem recalls_storageAt (log : List MetaOperate) (p : ℕ) :
    Recalls marshal log p (storageAt marshal log p) :=
  fun _ => ⟨p, Nat.le_refl p, rfl⟩

/-- An entry changes its own key, to what it is in the log from there on. -/
theorem Recalls.operate {log : List MetaOperate} {p : ℕ} {storage : RocksDBMetaStorage}
    {o : MetaOperate} (h : Recalls marshal log p storage) (ho : log[p]? = some o) :
    Recalls marshal log (p + 1) (storage.operate marshal o) := by
  intro k
  rw [RocksDBMetaStorage.lookup_operate]
  by_cases hk : k = o.objectMeta.objId
  · refine ⟨p + 1, Nat.le_refl _, ?_⟩
    rw [storageAt, stateAt_succ ho, RocksDBMetaStorage.lookup_operate, applyOp, applyOp, hk,
      ← MetaOperate.key_op marshal o, Function.update_self, Function.update_self]
  · obtain ⟨q, hq, hkeep⟩ := h k
    refine ⟨q, hq.trans (Nat.le_succ p), ?_⟩
    rw [applyOp, Function.update_of_ne (by rwa [MetaOperate.key_op])]
    exact hkeep

/-- Putting pairs, of which only the first keys are looked at, leaves a key or gives it a value that
stands beside it. -/
theorem lookup_putAll {cf cf' : ByteMap Bytes} {l : List (Bytes × Bytes)} {n : ℕ}
    (h : RocksDBMetaStorage.putAll cf ((l.take n).map Prod.fst) (l.map Prod.snd) = some cf')
    (k : Bytes) : cf'[k]? = cf[k]? ∨ ∃ v, (k, v) ∈ l.take n ∧ cf'[k]? = some v := by
  induction l generalizing cf n with
  | nil =>
    cases n <;> cases h <;> exact .inl rfl
  | cons e l ih =>
    cases n with
    | zero =>
      cases h
      exact .inl rfl
    | succ n =>
      rw [List.take_succ_cons] at h ⊢
      rcases ih h with hk | ⟨v, hv, hk⟩
      · rw [ExtTreeMap.getElem?_insert] at hk
        split_ifs at hk with heq
        · rw [LawfulEqCmp.compare_eq_iff_eq] at heq
          exact .inr ⟨e.2, heq ▸ List.mem_cons_self, hk⟩
        · exact .inl hk
      · exact .inr ⟨v, List.mem_cons_of_mem _ hv, hk⟩

/-- Putting some of the keys of a snapshot over a storage gives each key one of its two values. -/
theorem lookup_recoverFirst {puts : ℕ} {storage t r : RocksDBMetaStorage}
    (h : recoverFirst codec puts storage (t.createSnapshot codec) = some r) (k : Bytes) :
    r.lookup k = storage.lookup k ∨ r.lookup k = t.lookup k := by
  rw [recoverFirst, RocksDBMetaStorage.createSnapshot, codec.unmarshal_marshal] at h
  simp only [Option.bind_eq_bind, Option.bind_some, ← List.map_take] at h
  obtain ⟨cf, hput, hr⟩ := Option.bind_eq_some_iff.1 h
  cases hr
  rcases lookup_putAll hput k with hsame | ⟨v, hv, hcf⟩
  · exact .inl hsame
  · have hmem := List.mem_of_mem_take hv
    exact .inr (hcf.trans (ExtTreeMap.mem_toList_iff_getElem?_eq_some.1 hmem).symm)

/-- A longer log still explains an event, if no other entry takes the ID of its operation. -/
theorem Explained.append {log more : List MetaOperate} {e : Event}
    (h : Explained marshal unmarshal log e)
    (hmore : ∀ n o q, e = .proposed n o q → ∀ e' ∈ more, e'.operateId = o.operateId → e' = o) :
    Explained marshal unmarshal (log ++ more) e := by
  have hlen : (log ++ more).length = log.length + more.length := List.length_append
  cases e with
  | proposed n o q =>
    obtain ⟨hq, hentry⟩ := h
    refine ⟨by omega, ?_⟩
    intro i e' hi hid
    -- an entry that is added now stands behind all that was proposed before
    by_cases hlt : i < log.length
    · rw [List.getElem?_append_left hlt] at hi
      exact hentry i e' hi hid
    · rw [List.getElem?_append_right (by omega)] at hi
      exact ⟨hmore n o q rfl e' (List.mem_of_getElem? hi) hid, by omega⟩
  | answered n o r p =>
    obtain ⟨i, hi, hp⟩ := h
    have hlt := (List.getElem?_eq_some_iff.1 hi).1
    exact ⟨i, by rw [List.getElem?_append_left hlt, hi], hp⟩
  | found n objID result p =>
    obtain ⟨hp, q, hq, hresult⟩ := h
    refine ⟨by omega, q, hq, ?_⟩
    rw [storageAt, stateAt_append (hq.trans hp)]
    exact hresult

/-- What a step does to a node: it applies entries of the log and releases their calls, or installs
a snapshot. -/
structure Advanced (marshal : ObjectMeta → Bytes) (s s' : Group β) (n : UInt64) : Prop where
  applied : (s.members n).applied ≤ (s'.members n).applied
  applied_le : (s'.members n).applied ≤ s'.log.length
  installed : (s'.members n).installed = false → (s.members n).installed = false
  storage : Recalls marshal s'.log (s'.members n).applied (s'.members n).metaNode.storage
  exact : (s'.members n).installed = false →
    (s'.members n).metaNode.storage = storageAt marshal s'.log (s'.members n).applied
  released : ∀ r ∈ (s'.members n).metaNode.released, r ∈ (s.members n).metaNode.released ∨
    r.pending.operate ∈ s'.log.take (s'.members n).applied ∧
      ∃ q, .proposed n r.pending.operate q ∈ s.history

structure Added (marshal : ObjectMeta → Bytes) (unmarshal : Bytes → Except Errno ObjectMeta)
    (head : UInt64 → UInt64) (s s' : Group β) (e : Event) : Prop where
  explained : Explained marshal unmarshal s'.log e
  finished : ∀ n p, e.finished = some (n, p) → p ≤ (s'.members n).applied
  answered : ∀ n o r p, e = .answered n o r p → ∃ q, .proposed n o q ∈ s.history
  ordered : ∀ e₀ ∈ s.history, Precedes e₀ e
  asked : ∃ t, head t = e.node
  found : ∀ n objID result p, e = .found n objID result p → (s'.members n).installed = false →
    result = (storageAt marshal s'.log p).getMeta unmarshal objID

namespace Consistent

/-- A step adds entries to the log, lets nodes apply them and adds events. -/
theorem extend (h : Consistent marshal unmarshal codec head s) {more : List MetaOperate}
    {new : List Event} (hlog : s'.log = s.log ++ more) (hhistory : s'.history = s.history ++ new)
    (hmembers : ∀ n, Advanced marshal s s' n)
    (hmore : ∀ e ∈ more, ∀ n o q, .proposed n o q ∈ s.history → e.operateId = o.operateId → e = o)
    (hnew : ∀ e ∈ new, Added marshal unmarshal head s s' e)
    (hone : new.Pairwise Precedes)
    (hsnapshots : ∀ x ∈ s'.snapshots, x ∈ s.snapshots ∨ x.1 ≤ s'.log.length ∧
      ∃ t : RocksDBMetaStorage, x.2 = t.createSnapshot codec ∧ Recalls marshal s'.log x.1 t) :
    Consistent marshal unmarshal codec head s' where
  applied_le n := (hmembers n).applied_le
  storage n := (hmembers n).storage
  exact n := (hmembers n).exact
  snapshots x hx := by
    rcases hsnapshots x hx with hx | hx
    · obtain ⟨hle, t, ht, hrecalls⟩ := h.snapshots x hx
      rw [hlog]
      exact ⟨hle.trans (by rw [List.length_append]; omega), t, ht, hrecalls.append hle more⟩
    · exact hx
  released n r hr := by
    rcases (hmembers n).released r hr with hold | ⟨htake, q, hq⟩
    · obtain ⟨htake, q, hq⟩ := h.released n r hold
      refine ⟨?_, q, hhistory ▸ List.mem_append_left _ hq⟩
      rw [hlog]
      exact mem_take_of_le (hmembers n).applied (mem_take_append more htake)
    · exact ⟨htake, q, hhistory ▸ List.mem_append_left _ hq⟩
  explained e he := by
    rw [hhistory] at he
    rcases List.mem_append.1 he with he | he
    · rw [hlog]
      apply (h.explained e he).append
      rintro n o q rfl e' he' hid
      exact hmore e' he' n o q he hid
    · exact (hnew e he).explained
  answered {n o r p} hmem := by
    rw [hhistory] at hmem ⊢
    rcases List.mem_append.1 hmem with hmem | hmem
    · obtain ⟨q, hq⟩ := h.answered hmem
      exact ⟨q, List.mem_append_left _ hq⟩
    · obtain ⟨q, hq⟩ := (hnew _ hmem).answered n o r p rfl
      exact ⟨q, List.mem_append_left _ hq⟩
  finished e he n p hp := by
    rw [hhistory] at he
    rcases List.mem_append.1 he with he | he
    · exact (h.finished e he n p hp).trans (hmembers n).applied
    · exact (hnew e he).finished n p hp
  ordered := by
    rw [hhistory, List.pairwise_append]
    exact ⟨h.ordered, hone, fun e₀ he₀ e he => (hnew e he).ordered e₀ he₀⟩
  asked e he := by
    rw [hhistory] at he
    rcases List.mem_append.1 he with he | he
    · exact h.asked e he
    · exact (hnew e he).asked
  found {n objID result p} hmem hinst := by
    rw [hhistory] at hmem
    rcases List.mem_append.1 hmem with hmem | hmem
    · -- the log before an event stays as it was
      have hp : p ≤ s.log.length := (h.explained _ hmem).1
      rw [hlog, storageAt, stateAt_append hp]
      exact h.found hmem ((hmembers n).installed hinst)
    · exact (hnew _ hmem).found n objID result p rfl hinst

/-- A node that applies nothing. -/
theorem advanced (h : Consistent marshal unmarshal codec head s) {n : UInt64}
    (hkept : Kept (s.members n) (s'.members n)) (hlog : s.log <+: s'.log) :
    Advanced marshal s s' n := by
  have hle := h.applied_le n
  obtain ⟨more, hlog⟩ := hlog
  constructor
  · exact hkept.applied.ge
  · rw [hkept.applied, ← hlog, List.length_append]
    omega
  · rw [hkept.installed]
    exact id
  · rw [hkept.storage, hkept.applied, ← hlog]
    exact (h.storage n).append hle more
  · rw [hkept.installed, hkept.storage, hkept.applied, ← hlog, storageAt, stateAt_append hle]
    exact h.exact n
  · exact fun r hr => .inl (hkept.released hr)

/-- A step of which clients see nothing. -/
theorem keep (h : Consistent marshal unmarshal codec head s) (hlog : s'.log = s.log)
    (hhistory : s'.history = s.history) (hsnapshots : s'.snapshots = s.snapshots)
    (hkept : ∀ n, Kept (s.members n) (s'.members n)) :
    Consistent marshal unmarshal codec head s' := by
  have hlog' : s'.log = s.log ++ [] := by rw [hlog, List.append_nil]
  refine h.extend hlog' (by rw [hhistory, List.append_nil])
    (fun n => h.advanced (hkept n) ⟨[], hlog'.symm⟩) ?_ ?_ .nil ?_
  · exact fun e he => (by cases he)
  · exact fun e he => (by cases he)
  · exact fun x hx => .inl (hsnapshots ▸ hx)

/-- The end of a call that was there before stands before what is proposed now. -/
theorem finished_le (h : Consistent marshal unmarshal codec head s) {e : Event} (he : e ∈ s.history)
    {n : UInt64} {p : ℕ} (hp : e.finished = some (n, p)) : p ≤ s.log.length :=
  (h.finished e he n p hp).trans (h.applied_le n)

end Consistent

/-- No entry that a node applies meets a failing call of the storage. -/
def Undisturbed : Action → Prop
  | .apply _ call => call = {}
  | _ => True

namespace Consistent

/-- A change of a node of which clients see nothing. -/
theorem setMember (h : Consistent marshal unmarshal codec head s) {m : Member}
    (hkept : Kept (s.members node) m) :
    Consistent marshal unmarshal codec head (s.setMember node m) := by
  exact h.keep rfl rfl rfl (kept_setMember hkept)

theorem request (h : Consistent marshal unmarshal codec head s) (hid : Identified head start s)
    (hapart : ∀ t t', (head t).toUInt16 = (head t').toUInt16 → head t = head t')
    (hcalls : ∀ n, (s.members n).calls < 2 ^ 48) {t : UInt64} {sync : Bool}
    {r : Except Errno MetaOperate} (hs' : s.request (head t) sync r = some s') :
    Consistent marshal unmarshal codec head s' := by
  cases r with
  | error e =>
    cases hs'
    exact h.setMember ⟨rfl, rfl, rfl, List.Subset.refl _⟩
  | ok o =>
    obtain ⟨n, o, hn, rfl⟩ := request_ok hs'
    refine h.extend (List.append_nil _).symm rfl ?_ (fun e he => (by cases he)) ?_
      (List.pairwise_singleton _ _) fun x hx => .inl hx
    · intro n'
      refine h.advanced (kept_setMember ?_ n') List.prefix_rfl
      exact ⟨rfl, rfl, hn.storage, fun r hr => hn.released ▸ hr⟩
    · intro e he
      cases List.mem_singleton.1 he
      constructor
      · refine ⟨Nat.le_refl _, ?_⟩
        intro i e hi heq
        -- no entry has the new ID
        obtain ⟨n', q, hold⟩ := hid.entries e
          (List.mem_append_left _ (List.mem_of_getElem? hi))
        rw [hn.operateId] at heq
        exact absurd heq (hid.fresh hapart hcalls hold)
      · exact fun _ _ hp => (by cases hp)
      · exact fun _ _ _ _ he => (by cases he)
      · exact fun e₀ he₀ n' p hp => h.finished_le he₀ hp
      · exact ⟨t, rfl⟩
      · exact fun _ _ _ _ he => (by cases he)

theorem getMeta_eq {storage storage' : RocksDBMetaStorage} {objID : Bytes}
    (h : storage.lookup objID = storage'.lookup objID) :
    storage.getMeta unmarshal objID = storage'.getMeta unmarshal objID := by
  rw [RocksDBMetaStorage.getMeta, h]
  rfl

theorem get (h : Consistent marshal unmarshal codec head s) (t : UInt64) (objID : Bytes) :
    Consistent marshal unmarshal codec head { s with
      history := s.history ++ [.found (head t) objID
        ((s.members (head t)).metaNode.storage.getMeta unmarshal objID)
        (s.members (head t)).applied] } := by
  refine h.extend (List.append_nil _).symm rfl ?_ (fun e he => (by cases he)) ?_
    (List.pairwise_singleton _ _) fun x hx => .inl hx
  · exact fun n => h.advanced (Kept.refl _) List.prefix_rfl
  · intro e he
    cases List.mem_singleton.1 he
    constructor
    · obtain ⟨q, hq, hlookup⟩ := h.storage (head t) objID
      exact ⟨h.applied_le _, q, hq, getMeta_eq hlookup⟩
    · intro n p hp
      cases hp
      exact Nat.le_refl _
    · exact fun _ _ _ _ he => (by cases he)
    · intro e₀ he₀ n p hp hn
      subst hn
      exact h.finished e₀ he₀ _ p hp
    · exact ⟨t, rfl⟩
    · intro n objID' result p he hinst
      cases he
      rw [h.exact _ hinst]

theorem commit (h : Consistent marshal unmarshal codec head s) (hid : Identified head start s)
    {i : ℕ} {o : MetaOperate} (ho : s.proposals[i]? = some o) :
    Consistent marshal unmarshal codec head
      { s with log := s.log ++ [o], proposals := s.proposals.eraseIdx i } := by
  refine h.extend rfl (List.append_nil _).symm ?_ ?_ (fun e he => (by cases he)) .nil
    fun x hx => .inl hx
  · exact fun n => h.advanced (Kept.refl _) (List.prefix_append _ _)
  · intro e he n o' q hmem heq
    rw [List.mem_singleton.1 he] at heq ⊢
    obtain ⟨n', q', hmem'⟩ := hid.entries o
      (List.mem_append_right _ (List.mem_of_getElem? ho))
    exact (hid.unique hmem' hmem heq).2

theorem apply (h : Consistent marshal unmarshal codec head s) (hid : Identified head start s)
    {o : MetaOperate} (ho : s.log[(s.members node).applied]? = some o) :
    Consistent marshal unmarshal codec head (s.setMember node
      { s.members node with
        metaNode := (s.members node).metaNode.readEntry marshal (o, {})
        applied := (s.members node).applied + 1 }) := by
  have hlt := (List.getElem?_eq_some_iff.1 ho).1
  refine h.extend (List.append_nil _).symm (List.append_nil _).symm ?_ (fun e he => (by cases he))
    (fun e he => (by cases he)) .nil fun x hx => .inl hx
  intro n'
  by_cases hnode : n' = node
  · subst hnode
    have hstorage : ((s.members n').metaNode.readEntry marshal (o, {})).storage =
        (s.members n').metaNode.storage.operate marshal o := operateCall_written _ o
    constructor <;> simp only [Group.setMember, Function.update_self]
    · omega
    · omega
    · exact id
    · rw [hstorage]
      exact (h.storage n').operate ho
    · intro hinst
      rw [hstorage, storageAt, stateAt_succ ho, h.exact n' hinst]
      rfl
    · intro r hr
      refine (MetaNode.mem_released_readEntry hr).imp_right fun hrel => ?_
      -- a call that is released now waited for this entry
      obtain ⟨hp, heq, -, -⟩ := hrel
      obtain ⟨q, hq⟩ := hid.waiting n' _ hp
      refine ⟨?_, q, hq⟩
      rw [hid.own hp (List.mem_append_left _ (List.mem_of_getElem? ho)) heq, List.take_add_one, ho]
      exact List.mem_append_right _ (List.mem_singleton_self _)
  · refine h.advanced ?_ List.prefix_rfl
    simp only [Group.setMember, Function.update_of_ne hnode]
    exact Kept.refl _

theorem snapshot (h : Consistent marshal unmarshal codec head s) {index : ℕ}
    (hle : (s.members node).applied ≤ index) (hindex : index ≤ s.log.length) :
    Consistent marshal unmarshal codec head { s with snapshots := s.snapshots ++
      [(index, (s.members node).metaNode.storage.createSnapshot codec)] } := by
  refine h.extend (List.append_nil _).symm (List.append_nil _).symm
    (fun n => h.advanced (Kept.refl _) List.prefix_rfl) (fun e he => (by cases he))
    (fun e he => (by cases he)) .nil fun x hx => ?_
  refine (List.mem_append.1 hx).imp_right fun hx => ?_
  cases List.mem_singleton.1 hx
  exact ⟨hindex, _, rfl, (h.storage node).mono hle⟩

theorem install (h : Consistent marshal unmarshal codec head s) {i puts index : ℕ} {data : β}
    {storage : RocksDBMetaStorage} (hdata : s.snapshots[i]? = some (index, data))
    (hstorage : recoverFirst codec puts (s.members node).metaNode.storage data = some storage)
    (hle : (s.members node).applied ≤ index) :
    Consistent marshal unmarshal codec head (s.setMember node { s.members node with
      metaNode := { (s.members node).metaNode with storage }
      applied := index
      installed := true }) := by
  obtain ⟨hindex, t, rfl, ht⟩ := h.snapshots _ (List.mem_of_getElem? hdata)
  refine h.extend (List.append_nil _).symm (List.append_nil _).symm ?_ (fun e he => (by cases he))
    (fun e he => (by cases he)) .nil fun x hx => .inl hx
  intro n'
  by_cases hnode : n' = node
  · subst hnode
    constructor <;> simp only [Group.setMember, Function.update_self]
    · exact hle
    · exact hindex
    · exact fun hinst => (by cases hinst)
    · -- a key that the snapshot does not have keeps its value
      intro k
      rcases lookup_recoverFirst hstorage k with hk | hk
      · rw [hk]
        exact (h.storage n').mono hle k
      · rw [hk]
        exact ht k
    · exact fun hinst => (by cases hinst)
    · exact fun r hr => .inl hr
  · refine h.advanced ?_ List.prefix_rfl
    simp only [Group.setMember, Function.update_of_ne hnode]
    exact Kept.refl _

theorem finish (h : Consistent marshal unmarshal codec head s) (hid : Identified head start s)
    {i : ℕ} {r : Released} {cloud : Bool} {n : MetaNode}
    (hr : (s.members node).metaNode.released[i]? = some r)
    (hn : (s.members node).metaNode.step ring a marshal unmarshal (.finish i cloud) = some n) :
    Consistent marshal unmarshal codec head { s.setMember node
        { s.members node with metaNode := n } with
      history := s.history ++ [.answered node r.pending.operate (MetaNode.finish r cloud).result
        (s.log.idxOf r.pending.operate + 1)] } := by
  obtain ⟨r', -, hn⟩ := Option.bind_eq_some_iff.1 hn
  cases hn
  obtain ⟨htake, q, hq⟩ := h.released node r (List.mem_of_getElem? hr)
  refine h.extend (List.append_nil _).symm rfl ?_ (fun e he => (by cases he)) ?_
    (List.pairwise_singleton _ _) fun x hx => .inl hx
  · intro n'
    refine h.advanced (kept_setMember ?_ n') List.prefix_rfl
    exact ⟨rfl, rfl, rfl, List.eraseIdx_subset⟩
  · intro e he
    cases List.mem_singleton.1 he
    constructor
    · exact ⟨_, getElem?_idxOf_of_mem (List.mem_of_mem_take htake), rfl⟩
    · intro n p hp
      cases hp
      have hlt := idxOf_lt_of_mem_take htake
      simp only [Group.setMember, Function.update_self]
      omega
    · intro n o result p he
      cases he
      exact ⟨q, hq⟩
    · exact fun e₀ he₀ n p hp => trivial
    · exact (hid.issued hq).1
    · exact fun _ _ _ _ he => (by cases he)

theorem step (h : Consistent marshal unmarshal codec head s) (hid : Identified head start s)
    (hapart : ∀ t t', (head t).toUInt16 = (head t').toUInt16 → head t = head t')
    (hcalls : ∀ n, (s.members n).calls < 2 ^ 48) {act : Action} (hact : Undisturbed act)
    (hs' : step ring a marshal unmarshal codec head s act = some s') :
    Consistent marshal unmarshal codec head s' := by
  cases act with
  | newTerm node term =>
    cases hs'
    exact h.setMember ⟨rfl, rfl, rfl, List.Subset.refl _⟩
  | record clientTerm m sync => exact h.request hid hapart hcalls hs'
  | delete clientTerm objID => exact h.request hid hapart hcalls hs'
  | get clientTerm objID =>
    rw [Replication.step] at hs'
    split at hs'
    · cases hs'
      exact h
    · cases hs'
      exact h.get clientTerm _
  | commit i =>
    obtain ⟨o, ho, hs'⟩ := Option.bind_eq_some_iff.1 hs'
    cases hs'
    exact h.commit hid ho
  | lose i =>
    cases hs'
    exact h.keep rfl rfl rfl fun _ => Kept.refl _
  | apply node call =>
    obtain ⟨o, ho, hs'⟩ := Option.bind_eq_some_iff.1 hs'
    cases hs'
    cases hact
    exact h.apply hid ho
  | snapshot node index =>
    obtain ⟨hle, hindex, rfl⟩ := step_snapshot hs'
    exact h.snapshot hle hindex
  | install node i puts =>
    obtain ⟨index, data, storage, hdata, hstorage, hle, rfl⟩ := step_install hs'
    exact h.install hdata hstorage hle
  | finish node i cloud =>
    obtain ⟨r, hr, hs'⟩ := Option.bind_eq_some_iff.1 hs'
    obtain ⟨n, hn, hs'⟩ := Option.bind_eq_some_iff.1 hs'
    cases hs'
    exact h.finish hid hr hn

end Consistent

theorem identified_new (pgID : UInt64) :
    Identified head start (Group.new pgID start : Group β) where
  generator n := (Idutil.Generator.after_zero _).symm
  issued hmem := by cases hmem
  unique hmem := by cases hmem
  entries o ho := by cases ho
  once := List.nodup_nil
  waiting n p hp := by cases hp

theorem consistent_new (pgID : UInt64) :
    Consistent marshal unmarshal codec head (Group.new pgID start) where
  applied_le n := Nat.le_refl _
  storage n := recalls_storageAt [] 0
  exact n _ := stateAt_zero.symm
  snapshots x hx := by cases hx
  released n r hr := by cases hr
  explained e he := by cases he
  answered hmem := by cases hmem
  finished e he := by cases he
  ordered := .nil
  asked e he := by cases he
  found hmem := by cases hmem

/-- What a step does to each node beside its storage: it makes one more call at most, and only an
installation makes the node one that has installed a snapshot. -/
structure Moved (act : Action) (n : UInt64) (m m' : Member) : Prop where
  calls : m'.calls ≤ m.calls + 1
  installed : (∀ i puts, act ≠ .install n i puts) → m'.installed = m.installed

theorem Moved.same {act : Action} {n : UInt64} {m m' : Member} (hcalls : m'.calls = m.calls)
    (hinstalled : m'.installed = m.installed) : Moved act n m m' :=
  ⟨hcalls.trans_le (Nat.le_succ _), fun _ => hinstalled⟩

theorem moved_setMember {act : Action} {m : Member} (hm : Moved act node (s.members node) m)
    (n : UInt64) : Moved act n (s.members n) ((s.setMember node m).members n) :=
  forall_setMember (P := fun n m => Moved act n (s.members n) m) hm (fun _ => .same rfl rfl) n

theorem moved_request {act : Action} {sync : Bool} {r : Except Errno MetaOperate}
    (h : s.request node sync r = some s') (n : UInt64) :
    Moved act n (s.members n) (s'.members n) := by
  cases r with
  | error e =>
    cases h
    refine moved_setMember ?_ n
    exact .same rfl rfl
  | ok o =>
    obtain ⟨n', o', -, rfl⟩ := request_ok h
    refine moved_setMember ?_ n
    exact ⟨Nat.le_refl _, fun _ => rfl⟩

theorem moved_step {act : Action} (h : step ring a marshal unmarshal codec head s act = some s')
    (n : UInt64) : Moved act n (s.members n) (s'.members n) := by
  cases act with
  | newTerm node term =>
    cases h
    refine moved_setMember ?_ n
    exact .same rfl rfl
  | record clientTerm m sync => exact moved_request h n
  | delete clientTerm objID => exact moved_request h n
  | get clientTerm objID =>
    rw [step] at h
    split at h <;> cases h <;> exact .same rfl rfl
  | commit i =>
    obtain ⟨o, ho, h⟩ := Option.bind_eq_some_iff.1 h
    cases h
    exact .same rfl rfl
  | lose i =>
    cases h
    exact .same rfl rfl
  | apply node call =>
    obtain ⟨o, ho, h⟩ := Option.bind_eq_some_iff.1 h
    cases h
    refine moved_setMember ?_ n
    exact .same rfl rfl
  | snapshot node index =>
    obtain ⟨-, -, rfl⟩ := step_snapshot h
    exact .same rfl rfl
  | install node i puts =>
    obtain ⟨index, data, storage, -, -, -, rfl⟩ := step_install h
    refine moved_setMember ?_ n
    exact ⟨Nat.le_succ _, fun hne => absurd rfl (hne i puts)⟩
  | finish node i cloud =>
    obtain ⟨r, hr, h⟩ := Option.bind_eq_some_iff.1 h
    obtain ⟨n', hn', h⟩ := Option.bind_eq_some_iff.1 h
    cases h
    refine moved_setMember ?_ n
    exact .same rfl rfl

/-- The calls stay apart along every run that is too short for a generator to come around, and the
history is consistent where no call of a storage fails. -/
theorem inv_run {pgID : UInt64} {acts : List Action}
    (hapart : ∀ t t', (head t).toUInt16 = (head t').toUInt16 → head t = head t')
    (hlen : acts.length < 2 ^ 48)
    (h : run (step ring a marshal unmarshal codec head) (Group.new pgID start) acts = some s) :
    Identified head start s ∧ (∀ n, (s.members n).calls ≤ acts.length) ∧
      ((∀ act ∈ acts, Undisturbed act) → Consistent marshal unmarshal codec head s) := by
  -- along the run with the actions so far, whose number bounds the calls
  refine run_history (G := fun _ _ => True)
    (H := fun as s => as.length < 2 ^ 48 → Identified head start s ∧
      (∀ n, (s.members n).calls ≤ as.length) ∧
      ((∀ act ∈ as, Undisturbed act) → Consistent marshal unmarshal codec head s))
    ?_ (fun _ => ⟨identified_new pgID, fun n => Nat.le_refl _, fun _ => consistent_new pgID⟩)
    (meets_of_forall (fun _ _ _ => trivial) _) h hlen
  intro as act s s' ih _ hs' hlen
  rw [List.length_append, List.length_singleton] at hlen ⊢
  obtain ⟨hid, hcalls, hcons⟩ := ih (by omega)
  have hlt : ∀ n, (s.members n).calls < 2 ^ 48 := by
    intro n
    have := hcalls n
    omega
  refine ⟨hid.step hapart hlt hs', ?_, ?_⟩
  · intro n
    have := hcalls n
    have := (moved_step hs' n).calls
    omega
  · intro hacts
    rw [List.forall_mem_append] at hacts
    exact (hcons hacts.1).step hid hapart hlt (hacts.2 act (List.mem_singleton_self _)) hs'

theorem installed_run {pgID : UInt64} {acts : List Action}
    (h : run (step ring a marshal unmarshal codec head) (Group.new pgID start) acts = some s)
    {n : UInt64} (hn : ∀ i puts, .install n i puts ∉ acts) : (s.members n).installed = false := by
  have hacts : ∀ act ∈ acts, ∀ i puts, act ≠ .install n i puts := by
    intro act hact i puts heq
    exact hn i puts (heq ▸ hact)
  refine run_invariant (G := fun _ act => ∀ i puts, act ≠ .install n i puts)
    (I := fun s : Group β => (s.members n).installed = false) ?_ rfl
    (meets_of_forall (fun act hact _ => hacts act hact) _) h
  intro s act s' hs hact hstep
  rw [(moved_step hstep n).installed hact, hs]

end

/-- Over every run of the group whose raft IDs differ in their lower 16 bits, one log of operations
explains all that clients see. Every operation is in it once at most, a lookup finds what the log
has at its position, or had before where a snapshot was installed, what a node answers is an
operation that was proposed to it, and calls that have ended stand in the log before operations that
are proposed later and before lookups that come later on the same node. -/
theorem group_consistent {β : Type} (ring : Mapper) (a : AlayaEnv) (marshal : ObjectMeta → Bytes)
    (unmarshal : Bytes → Except Errno ObjectMeta) (codec : Codec CfContent β)
    (head start : UInt64 → UInt64) (pgID : UInt64) (acts : List Action) (s : Group β)
    (hapart : ∀ t t', (head t).toUInt16 = (head t').toUInt16 → head t = head t')
    (hlen : acts.length < 2 ^ 48) (hacts : ∀ act ∈ acts, Undisturbed act)
    (h : run (step ring a marshal unmarshal codec head) (Group.new pgID start) acts = some s) :
    (s.log.map MetaOperate.operateId).Nodup ∧
      (∀ e ∈ s.history, Explained marshal unmarshal s.log e) ∧
      (∀ n objID result p, .found n objID result p ∈ s.history →
        (∀ i puts, .install n i puts ∉ acts) →
          result = (storageAt marshal s.log p).getMeta unmarshal objID) ∧
      (∀ n o r p, .answered n o r p ∈ s.history → ∃ q, .proposed n o q ∈ s.history) ∧
      s.history.Pairwise Precedes := by
  obtain ⟨hid, -, hundisturbed⟩ := inv_run hapart hlen h
  have hcons := hundisturbed hacts
  refine ⟨?_, hcons.explained, ?_, fun n o r p => hcons.answered, hcons.ordered⟩
  · exact hid.once.sublist ((List.sublist_append_left _ _).map _)
  · exact fun n objID result p hmem hn => hcons.found hmem (installed_run h hn)

def secondHead (term : UInt64) : UInt64 := if term = 2 then 2 else 1

theorem secondHead_apart (t t' : UInt64)
    (h : (secondHead t).toUInt16 = (secondHead t').toUInt16) : secondHead t = secondHead t' := by
  unfold secondHead at h ⊢
  split_ifs at h ⊢ <;> first | rfl | cases h

def oneStep (head : UInt64 → UInt64) : Group CfContent → Action → Option (Group CfContent) :=
  step (fun _ _ => 0) ⟨fun _ => none, fun _ => none⟩ ObjectMeta.objId
    (fun k => .ok { MetaNode.oneMeta with objId := k }) (Codec.refl CfContent) head

def recordOne : List Action := [.newTerm 1 1, .record 1 MetaNode.oneMeta false, .commit 0]

/-- The call is answered, and the meta is looked up in term 1 and, by the first node of term 2, in
term 2. -/
def lookUpTwice (node : UInt64) : List Action :=
  recordOne ++ [.apply 1 {}, .finish 1 0 true, .get 1 [97], .newTerm node 2, .get 2 [97]]

theorem undisturbed_lookUpTwice (node : UInt64) : ∀ act ∈ lookUpTwice node, Undisturbed act := by
  simp [lookUpTwice, recordOne, Undisturbed]

/-- The meta is deleted again. Node 2 has applied only that it was recorded, catches up by a
snapshot of node 1 and is asked in term 2. -/
def catchUp : List Action :=
  recordOne ++ [.apply 1 {}, .apply 2 {}, .finish 1 0 true, .delete 1 [97], .commit 0,
    .apply 1 {}, .finish 1 0 true, .get 1 [97], .snapshot 1 2, .install 2 0 0, .newTerm 2 2,
    .get 2 [97]]

/-- What was deleted is found again on node 2, and not on node 1. -/
theorem group_consistent_catchUp :
    ∃ s, run (oneStep secondHead) (Group.new 0 fun _ => 0) catchUp = some s ∧
      s.history.map Event.finished =
        [none, some (1, 1), none, some (1, 2), some (1, 2), some (2, 2)] ∧
      (∃ m, .found 2 [97] (.ok m) 2 ∈ s.history) ∧
      (∃ result, .found 1 [97] result 2 ∈ s.history ∧
        result = (storageAt ObjectMeta.objId s.log 2).getMeta
          (fun k => .ok { MetaNode.oneMeta with objId := k }) [97]) ∧
      (s.log.map MetaOperate.operateId).Nodup ∧ s.history.Pairwise Precedes := by
  obtain ⟨s, hs⟩ :
      ∃ s, run (oneStep secondHead) (Group.new 0 fun _ => 0) catchUp = some s := ⟨_, rfl⟩
  have hfinished : (run (oneStep secondHead) (Group.new 0 fun _ => 0) catchUp).map
      (fun s => s.history.map Event.finished) =
        some [none, some (1, 1), none, some (1, 2), some (1, 2), some (2, 2)] := rfl
  have hfound : ∀ x ∈ run (oneStep secondHead) (Group.new 0 fun _ => 0) catchUp,
      (∃ m, .found 2 [97] (.ok m) 2 ∈ x.history) ∧
        ∃ result, .found 1 [97] result 2 ∈ x.history := by
    intro x hx
    cases hx
    exact ⟨⟨_, .tail _ (.tail _ (.tail _ (.tail _ (.tail _ (.head _)))))⟩,
      _, .tail _ (.tail _ (.tail _ (.tail _ (.head _))))⟩
  obtain ⟨hagain, result, hresult⟩ := hfound s hs
  rw [hs] at hfinished
  obtain ⟨hnodup, -, hexact, -, hordered⟩ := group_consistent _ _ _ _ _ secondHead (fun _ => 0) 0
    catchUp s secondHead_apart (by decide) (by simp [catchUp, recordOne, Undisturbed]) hs
  exact ⟨s, hs, Option.some.inj hfinished, hagain,
    ⟨result, hresult, hexact 1 [97] result 2 hresult (by simp [catchUp, recordOne])⟩, hnodup,
    hordered⟩

/-- What holds of two events in this order where one node answers all calls: a call that has ended
stands before whatever is proposed or found later. -/
def InOrder (e e' : Event) : Prop :=
  ∀ node p, e.finished = some (node, p) →
    match e' with
    | .proposed _ _ p' => p ≤ p'
    | .answered _ _ _ _ => True
    | .found _ _ _ p' => p ≤ p'

theorem node_of_finished {e : Event} {node : UInt64} {p : ℕ} (h : e.finished = some (node, p)) :
    e.node = node := by
  cases e with
  | proposed n o q => cases h
  | answered n o r q =>
    cases h
    rfl
  | found n objID result q =>
    cases h
    rfl

/-- Where the first node of the pipeline is the same in all terms and installs no snapshot, the log
explains every lookup at a position behind all calls that ended before it, so that the history is
linearizable. -/
theorem linearizable_of_one_head {β : Type} (ring : Mapper) (a : AlayaEnv)
    (marshal : ObjectMeta → Bytes) (unmarshal : Bytes → Except Errno ObjectMeta)
    (codec : Codec CfContent β) (head start : UInt64 → UInt64) (pgID : UInt64)
    (acts : List Action) (s : Group β) (hhead : ∀ t t', head t = head t')
    (hinstall : ∀ t i puts, .install (head t) i puts ∉ acts)
    (hlen : acts.length < 2 ^ 48) (hacts : ∀ act ∈ acts, Undisturbed act)
    (h : run (step ring a marshal unmarshal codec head) (Group.new pgID start) acts = some s) :
    (∀ e ∈ s.history, Explained marshal unmarshal s.log e) ∧
      (∀ n objID result p, .found n objID result p ∈ s.history →
        result = (storageAt marshal s.log p).getMeta unmarshal objID) ∧
      s.history.Pairwise InOrder := by
  obtain ⟨-, -, hundisturbed⟩ := inv_run (fun t t' _ => hhead t t') hlen h
  have hcons := hundisturbed hacts
  refine ⟨hcons.explained, ?_, hcons.ordered.imp_of_mem ?_⟩
  · intro n objID result p hmem
    obtain ⟨t, ht⟩ := hcons.asked _ hmem
    apply hcons.found hmem
    apply installed_run h
    rw [show n = head t from ht.symm]
    exact hinstall t
  intro e e' he he' hprecedes node p hp
  have hle := hprecedes node p hp
  cases e' with
  | proposed n o q => exact hle
  | answered n o r q => trivial
  | found n objID result q =>
    obtain ⟨t, ht⟩ := hcons.asked e he
    obtain ⟨t', ht'⟩ := hcons.asked _ he'
    apply hle
    calc node = e.node := (node_of_finished hp).symm
      _ = head t := ht.symm
      _ = head t' := hhead t t'
      _ = n := ht'

theorem linearizable_lookUpTwice :
    ∃ s, run (oneStep fun _ => 1) (Group.new 0 fun _ => 0) (lookUpTwice 1) = some s ∧
      s.history.map Event.finished = [none, some (1, 1), some (1, 1), some (1, 1)] ∧
      s.history.Pairwise InOrder := by
  obtain ⟨s, hs⟩ :
      ∃ s, run (oneStep fun _ => 1) (Group.new 0 fun _ => 0) (lookUpTwice 1) = some s := ⟨_, rfl⟩
  have hfinished : (run (oneStep fun _ => 1) (Group.new 0 fun _ => 0) (lookUpTwice 1)).map
      (fun s => s.history.map Event.finished) =
        some [none, some (1, 1), some (1, 1), some (1, 1)] := rfl
  rw [hs] at hfinished
  have hlinear := linearizable_of_one_head _ _ _ _ _ (fun _ => 1) (fun _ => 0) 0 (lookUpTwice 1) s
    (fun _ _ => rfl) (by simp [lookUpTwice, recordOne]) (by decide) (undisturbed_lookUpTwice 1) hs
  exact ⟨s, hs, Option.some.inj hfinished, hlinear.2.2⟩

/-- `Register` never panics, and an entry of the log with the ID of a call that waits on a node is
the operation of that call: no call is triggered by the entry of another. -/
theorem calls_keep_apart {β : Type} (ring : Mapper) (a : AlayaEnv) (marshal : ObjectMeta → Bytes)
    (unmarshal : Bytes → Except Errno ObjectMeta) (codec : Codec CfContent β)
    (head start : UInt64 → UInt64) (pgID : UInt64) (acts : List Action) (s : Group β)
    (hapart : ∀ t t', (head t).toUInt16 = (head t').toUInt16 → head t = head t')
    (hlen : acts.length < 2 ^ 48)
    (h : run (step ring a marshal unmarshal codec head) (Group.new pgID start) acts = some s) :
    (∀ t o sync, ((s.members (head t)).metaNode.propose o sync).isSome) ∧
      ∀ n, ∀ p ∈ (s.members n).metaNode.waiting, ∀ e ∈ s.log,
        p.operate.operateId = e.operateId → p.operate = e := by
  obtain ⟨hid, hcalls, -⟩ := inv_run hapart hlen h
  constructor
  · intro t o sync
    have hnone : ¬∃ p ∈ (s.members (head t)).metaNode.waiting,
        p.operate.operateId = (s.members (head t)).metaNode.reqIDGen.next.1 := by
      rintro ⟨p, hp, heq⟩
      obtain ⟨q, hq⟩ := hid.waiting (head t) p hp
      exact hid.fresh hapart (fun n => (hcalls n).trans_lt hlen) hq heq
    rw [MetaNode.propose]
    dsimp only
    rw [if_neg hnone]
    rfl
  · exact fun n p hp e he => hid.own hp (List.mem_append_left _ he)

/-- The call waits while its entry is in the log, and other calls can be made. -/
theorem calls_keep_apart_recordOne :
    ∃ s, run (oneStep secondHead) (Group.new 0 fun _ => 0) recordOne = some s ∧
      (s.members 1).metaNode.waiting.map Pending.operate = s.log ∧
      ∀ t o sync, ((s.members (secondHead t)).metaNode.propose o sync).isSome := by
  obtain ⟨s, hs⟩ : ∃ s, run (oneStep secondHead) (Group.new 0 fun _ => 0) recordOne = some s :=
    ⟨_, rfl⟩
  have hwaits : ∀ x ∈ run (oneStep secondHead) (Group.new 0 fun _ => 0) recordOne,
      (x.members 1).metaNode.waiting.map Pending.operate = x.log := by
    intro x hx
    cases hx
    rfl
  have hapart := calls_keep_apart _ _ _ _ _ secondHead (fun _ => 0) 0 recordOne s secondHead_apart
    (by decide) hs
  exact ⟨s, hs, hwaits s hs, hapart.1⟩

end Ecos.Alaya.Replication
