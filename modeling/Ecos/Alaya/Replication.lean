import Ecos.Alaya.Acknowledge
import Ecos.Logic.LogPrefix

namespace Ecos.Alaya.Replication
open Go Logic

structure Member where
  metaNode : MetaNode
  /-- current term of its watcher -/
  term : UInt64 := 0
  /-- entries that `readCommit` has applied, or that a snapshot stands for -/
  applied : ℕ := 0
  /-- whether a snapshot has come in -/
  installed : Bool := false
  /-- IDs that `reqIDGen` has given -/
  calls : ℕ := 0

inductive Event where
  | proposed (node : UInt64) (o : MetaOperate) (position : ℕ)
  | answered (node : UInt64) (o : MetaOperate) (result : Except Errno Unit) (position : ℕ)
  | found (node : UInt64) (objID : Bytes) (result : Except Errno ObjectMeta) (position : ℕ)

structure Group (β : Type) where
  /-- the committed entries -/
  log : List MetaOperate := []
  /-- entries that were proposed and are not committed -/
  proposals : List MetaOperate := []
  members : UInt64 → Member
  /-- the snapshots that were taken, with their index -/
  snapshots : List (ℕ × β) := []
  history : List Event := []

inductive Action where
  | newTerm (node term : UInt64)
  | record (clientTerm : UInt64) (m : ObjectMeta) (sync : Bool)
  | delete (clientTerm : UInt64) (objID : Bytes)
  | get (clientTerm : UInt64) (objID : Bytes)
  /-- raft commits a proposal -/
  | commit (i : ℕ)
  /-- raft loses a proposal -/
  | lose (i : ℕ)
  /-- `readCommit` comes to the next entry -/
  | apply (node : UInt64) (call : StorageCall)
  /-- `maybeTriggerSnapshot`, which may read the storage while `readCommit` is behind this index:
  it does not wait where the last entries had no data -/
  | snapshot (node : UInt64) (index : ℕ)
  /-- `readCommit` gets a snapshot from raft, and has put so many of its keys when `PutCF` fails -/
  | install (node : UInt64) (i : ℕ) (puts : ℕ)
  /-- the rest of a call whose ID was triggered, and whether the cloud answers with success -/
  | finish (node : UInt64) (i : ℕ) (cloud : Bool)

def startGenerator (start : UInt64 → UInt64) (node : UInt64) : Idutil.Generator :=
  Idutil.newGenerator node.toUInt16 (start node)

namespace Group
variable {β : Type}

def new (pgID : UInt64) (start : UInt64 → UInt64) : Group β where
  members node := { metaNode := MetaNode.new pgID node.toUInt16 (start node) }

def setMember (s : Group β) (node : UInt64) (m : Member) : Group β :=
  { s with members := Function.update s.members node m }

/-- The group when an operation of a node, which becomes `n`, was proposed. -/
def propose (s : Group β) (node : UInt64) (n : MetaNode) (o : MetaOperate) : Group β :=
  let m := s.members node
  { s.setMember node { m with metaNode := n, calls := m.calls + 1 } with
    proposals := s.proposals ++ [o]
    history := s.history ++ [.proposed node o s.log.length] }

def request (s : Group β) (node : UInt64) (sync : Bool) : Except Errno MetaOperate →
    Option (Group β)
  | .error e => do
    let m := s.members node
    let n ← m.metaNode.request sync (.error e)
    return s.setMember node { m with metaNode := n }
  | .ok o => do
    let m := s.members node
    let n ← m.metaNode.propose o sync
    return s.propose node n { o with operateId := m.metaNode.reqIDGen.next.1 }

end Group

section
variable {β : Type} (ring : Mapper) (a : AlayaEnv) (marshal : ObjectMeta → Bytes)
  (unmarshal : Bytes → Except Errno ObjectMeta) (codec : Codec CfContent β)
  (head : UInt64 → UInt64)

/-- `RecoverFromSnapshot` as far as the first keys. -/
def recoverFirst (puts : ℕ) (storage : RocksDBMetaStorage) (data : β) :
    Option RocksDBMetaStorage := do
  let content ← codec.unmarshal data
  let cf ← RocksDBMetaStorage.putAll storage.cf (content.keys.take puts) content.values
  return ⟨cf⟩

/-- The checks of `GetObjectMeta` with the ID that it looks up. -/
def getRequest (n : MetaNode) (current clientTerm : UInt64) (objID : Bytes) :
    Except Errno Bytes := do
  let term ← checkClientTerm current clientTerm
  let objID := cleanObjectKey objID
  if calculateObjectPGID ring a term objID ≠ n.pgID then .error .metaStorageNotExist
  else .ok objID

/-- A step of the group. A client of a term asks the first node of the pipeline of that term,
`GetMetaPGNodeID(pgId)[0]`. -/
def step (s : Group β) : Action → Option (Group β)
  | .newTerm node term => some (s.setMember node { s.members node with term := term })
  | .record clientTerm m sync =>
    let x := s.members (head clientTerm)
    s.request (head clientTerm) sync (x.metaNode.recordRequest ring a x.term clientTerm m)
  | .delete clientTerm objID =>
    let x := s.members (head clientTerm)
    s.request (head clientTerm) false
      (x.metaNode.deleteRequest ring a unmarshal x.term clientTerm objID)
  | .get clientTerm objID =>
    let x := s.members (head clientTerm)
    match getRequest ring a x.metaNode x.term clientTerm objID with
    | .error _ => some s
    | .ok objID => some { s with
        history := s.history ++ [.found (head clientTerm) objID
          (x.metaNode.storage.getMeta unmarshal objID) x.applied] }
  | .commit i => do
    let o ← s.proposals[i]?
    return { s with log := s.log ++ [o], proposals := s.proposals.eraseIdx i }
  | .lose i => some { s with proposals := s.proposals.eraseIdx i }
  | .apply node call => do
    let x := s.members node
    let o ← s.log[x.applied]?
    return s.setMember node { x with
      metaNode := x.metaNode.readEntry marshal (o, call), applied := x.applied + 1 }
  | .snapshot node index =>
    let x := s.members node
    if x.applied ≤ index ∧ index ≤ s.log.length then
      some { s with snapshots := s.snapshots ++ [(index, x.metaNode.storage.createSnapshot codec)] }
    else none
  | .install node i puts => do
    let x := s.members node
    let (index, data) ← s.snapshots[i]?
    let storage ← recoverFirst codec puts x.metaNode.storage data
    -- a snapshot that is behind is no snapshot for this node
    if index < x.applied then none
    else return s.setMember node { x with
      metaNode := { x.metaNode with storage }, applied := index, installed := true }
  | .finish node i cloud => do
    let x := s.members node
    let r ← x.metaNode.released[i]?
    let n ← x.metaNode.step ring a marshal unmarshal (.finish i cloud)
    -- the operation stands behind its entry
    return { s.setMember node { x with metaNode := n } with
      history := s.history ++ [.answered node r.pending.operate (MetaNode.finish r cloud).result
        (s.log.idxOf r.pending.operate + 1)] }

end

/-- The storage after the first `p` entries. -/
def storageAt (marshal : ObjectMeta → Bytes) (log : List MetaOperate) (p : ℕ) :
    RocksDBMetaStorage :=
  stateAt (RocksDBMetaStorage.operate marshal) .empty log p

/-- Each key has the value that it had after some of the first `p` entries. -/
def Recalls (marshal : ObjectMeta → Bytes) (log : List MetaOperate) (p : ℕ)
    (storage : RocksDBMetaStorage) : Prop :=
  ∀ k, ∃ q ≤ p, storage.lookup k = (storageAt marshal log q).lookup k

def Event.finished : Event → Option (UInt64 × ℕ)
  | .proposed _ _ _ => none
  | .answered node _ _ p => some (node, p)
  | .found node _ _ p => some (node, p)

def Event.node : Event → UInt64
  | .proposed node _ _ => node
  | .answered node _ _ _ => node
  | .found node _ _ _ => node

/-- The log explains an event: what was proposed comes into the log behind its position or not at
all, what was answered is the entry before its position, and what was found was in the storage at
its position or before. -/
def Explained (marshal : ObjectMeta → Bytes) (unmarshal : Bytes → Except Errno ObjectMeta)
    (log : List MetaOperate) : Event → Prop
  | .proposed _ o p => p ≤ log.length ∧
    ∀ i e, log[i]? = some e → e.operateId = o.operateId → e = o ∧ p ≤ i
  | .answered _ o _ p => ∃ i, log[i]? = some o ∧ p = i + 1
  | .found _ objID result p => p ≤ log.length ∧
    ∃ q ≤ p, result = (storageAt marshal log q).getMeta unmarshal objID

/-- What holds of two events in this order: a call that has ended stands before what is proposed
later, and before what is found later on the same node. -/
def Precedes (e e' : Event) : Prop :=
  ∀ node p, e.finished = some (node, p) →
    match e' with
    | .proposed _ _ p' => p ≤ p'
    | .answered _ _ _ _ => True
    | .found node' _ _ p' => node = node' → p ≤ p'

structure Identified {β : Type} (head start : UInt64 → UInt64) (s : Group β) : Prop where
  generator : ∀ n, (s.members n).metaNode.reqIDGen =
    (startGenerator start n).after (s.members n).calls
  issued : ∀ {n o q}, .proposed n o q ∈ s.history → (∃ t, head t = n) ∧
    ∃ i < (s.members n).calls, o.operateId = (startGenerator start n).nth i
  unique : ∀ {n o q n' o' q'}, .proposed n o q ∈ s.history → .proposed n' o' q' ∈ s.history →
    o.operateId = o'.operateId → n = n' ∧ o = o'
  entries : ∀ o ∈ s.log ++ s.proposals, ∃ n q, .proposed n o q ∈ s.history
  once : ((s.log ++ s.proposals).map MetaOperate.operateId).Nodup
  waiting : ∀ n, ∀ p ∈ (s.members n).metaNode.waiting, ∃ q, .proposed n p.operate q ∈ s.history

structure Consistent {β : Type} (marshal : ObjectMeta → Bytes)
    (unmarshal : Bytes → Except Errno ObjectMeta) (codec : Codec CfContent β)
    (head : UInt64 → UInt64) (s : Group β) : Prop where
  applied_le : ∀ n, (s.members n).applied ≤ s.log.length
  storage : ∀ n, Recalls marshal s.log (s.members n).applied (s.members n).metaNode.storage
  exact : ∀ n, (s.members n).installed = false →
    (s.members n).metaNode.storage = storageAt marshal s.log (s.members n).applied
  snapshots : ∀ x ∈ s.snapshots, x.1 ≤ s.log.length ∧
    ∃ t : RocksDBMetaStorage, x.2 = t.createSnapshot codec ∧ Recalls marshal s.log x.1 t
  released : ∀ n, ∀ r ∈ (s.members n).metaNode.released,
    r.pending.operate ∈ s.log.take (s.members n).applied ∧
      ∃ q, .proposed n r.pending.operate q ∈ s.history
  explained : ∀ e ∈ s.history, Explained marshal unmarshal s.log e
  answered : ∀ {n o r p}, .answered n o r p ∈ s.history → ∃ q, .proposed n o q ∈ s.history
  finished : ∀ e ∈ s.history, ∀ n p, e.finished = some (n, p) → p ≤ (s.members n).applied
  ordered : s.history.Pairwise Precedes
  asked : ∀ e ∈ s.history, ∃ t, head t = e.node
  found : ∀ {n objID result p}, .found n objID result p ∈ s.history →
    (s.members n).installed = false →
      result = (storageAt marshal s.log p).getMeta unmarshal objID

section
variable {β : Type} {ring : Mapper} {a : AlayaEnv} {marshal : ObjectMeta → Bytes}
  {unmarshal : Bytes → Except Errno ObjectMeta} {codec : Codec CfContent β}
  {head start : UInt64 → UInt64} {s s' : Group β} {node : UInt64}

theorem forall_setMember {P : UInt64 → Member → Prop} {m : Member} (hnode : P node m)
    (h : ∀ n, P n (s.members n)) (n : UInt64) : P n ((s.setMember node m).members n) := by
  by_cases hn : n = node
  · subst hn
    show P n (Function.update s.members n m n)
    rwa [Function.update_self]
  · show P n (Function.update s.members node m n)
    rw [Function.update_of_ne hn]
    exact h n

def Silent (m m' : Member) : Prop :=
  m'.metaNode.reqIDGen = m.metaNode.reqIDGen ∧ m'.calls = m.calls ∧
    m'.metaNode.waiting ⊆ m.metaNode.waiting

theorem Silent.refl (m : Member) : Silent m m := ⟨rfl, rfl, List.Subset.refl _⟩

theorem silent_setMember {m : Member} (hm : Silent (s.members node) m) (n : UInt64) :
    Silent (s.members n) ((s.setMember node m).members n) :=
  forall_setMember (P := fun n m => Silent (s.members n) m) hm (fun _ => Silent.refl _) n

namespace Identified

/-- Without a new call, entries may only move and vanish. -/
theorem of_silent (h : Identified head start s)
    (hmembers : ∀ n, Silent (s.members n) (s'.members n))
    (hentries : (s'.log ++ s'.proposals).Subperm (s.log ++ s.proposals))
    (hhistory : ∀ n o q, .proposed n o q ∈ s'.history ↔ .proposed n o q ∈ s.history) :
    Identified head start s' where
  generator n := by
    rw [(hmembers n).1, (hmembers n).2.1]
    exact h.generator n
  issued {n o q} hmem := by
    rw [(hmembers n).2.1]
    exact h.issued ((hhistory n o q).1 hmem)
  unique hmem hmem' hid := h.unique ((hhistory _ _ _).1 hmem) ((hhistory _ _ _).1 hmem') hid
  entries o ho := by
    obtain ⟨n, q, hmem⟩ := h.entries o (hentries.subset ho)
    exact ⟨n, q, (hhistory n o q).2 hmem⟩
  once := by
    obtain ⟨l, hperm, hsub⟩ := hentries
    have hl := h.once.sublist (hsub.map MetaOperate.operateId)
    exact ((hperm.map MetaOperate.operateId).nodup_iff).1 hl
  waiting n p hp := by
    obtain ⟨q, hmem⟩ := h.waiting n p ((hmembers n).2.2 hp)
    exact ⟨q, (hhistory n p.operate q).2 hmem⟩

/-- The next ID of a node is new, since raft IDs differ in their lower 16 bits. -/
theorem fresh (h : Identified head start s)
    (hapart : ∀ t t', (head t).toUInt16 = (head t').toUInt16 → head t = head t')
    (hcalls : ∀ n, (s.members n).calls < 2 ^ 48) {t : UInt64} {n : UInt64} {o : MetaOperate}
    {q : ℕ} (hmem : .proposed n o q ∈ s.history) :
    o.operateId ≠ (s.members (head t)).metaNode.reqIDGen.next.1 := by
  obtain ⟨⟨t', rfl⟩, i, hi, hid⟩ := h.issued hmem
  rw [h.generator, hid]
  intro heq
  -- the upper bits of the ID name the node, and its lower bits the call
  obtain ⟨hmember, hcall⟩ := Idutil.nth_inj (hi.trans (hcalls _)) (hcalls _) heq
  have hnode := hapart t' t hmember
  rw [hnode] at hi hcall
  exact absurd (hcall rfl) hi.ne

/-- An entry with the ID of a call that waits is the operation of that call. -/
theorem own (h : Identified head start s) {n : UInt64} {p : Pending} {o : MetaOperate}
    (hp : p ∈ (s.members n).metaNode.waiting) (ho : o ∈ s.log ++ s.proposals)
    (hid : p.operate.operateId = o.operateId) : p.operate = o := by
  obtain ⟨q, hmem⟩ := h.waiting n p hp
  obtain ⟨n', q', hmem'⟩ := h.entries o ho
  exact (h.unique hmem hmem' hid).2

end Identified

/-- What `propose` does to the node. -/
structure Waits (n : MetaNode) (o : MetaOperate) (n' : MetaNode) : Prop where
  operateId : o.operateId = n.reqIDGen.next.1
  reqIDGen : n'.reqIDGen = n.reqIDGen.next.2
  waiting : ∀ p ∈ n'.waiting, p ∈ n.waiting ∨ p.operate = o
  storage : n'.storage = n.storage
  released : n'.released = n.released

theorem request_ok {sync : Bool} {o : MetaOperate} (h : s.request node sync (.ok o) = some s') :
    ∃ n o', Waits (s.members node).metaNode o' n ∧ s' = s.propose node n o' := by
  obtain ⟨n, hn, hs'⟩ := Option.bind_eq_some_iff.1 h
  refine ⟨n, _, ?_, (Option.some.inj hs').symm⟩
  rw [MetaNode.propose] at hn
  dsimp only at hn
  split_ifs at hn
  cases hn
  refine ⟨rfl, rfl, ?_, rfl, rfl⟩
  intro p hp
  rcases List.mem_append.1 hp with hp | hp
  · exact .inl hp
  · rw [List.mem_singleton.1 hp]
    exact .inr rfl

theorem mem_propose {n : MetaNode} {o : MetaOperate} {e : Event} (h : e ∈ s.history) :
    e ∈ (s.propose node n o).history :=
  List.mem_append_left _ h

theorem proposed_propose (n : MetaNode) (o : MetaOperate) :
    .proposed node o s.log.length ∈ (s.propose node n o).history :=
  List.mem_append_right _ (List.mem_singleton_self _)

theorem proposed_cases {n : MetaNode} {o : MetaOperate} {n' : UInt64} {o' : MetaOperate} {q : ℕ}
    (h : .proposed n' o' q ∈ (s.propose node n o).history) :
    .proposed n' o' q ∈ s.history ∨ n' = node ∧ o' = o := by
  rcases List.mem_append.1 h with h | h
  · exact .inl h
  · cases List.mem_singleton.1 h
    exact .inr ⟨rfl, rfl⟩

theorem calls_propose (n : MetaNode) (o : MetaOperate) (n' : UInt64) :
    (s.members n').calls ≤ ((s.propose node n o).members n').calls :=
  forall_setMember (P := fun n' m => (s.members n').calls ≤ m.calls) (Nat.le_succ _)
    (fun _ => Nat.le_refl _) n'

theorem nodup_propose {n : MetaNode} {o : MetaOperate} (h : Identified head start s)
    (hfresh : ∀ {n' o' q}, .proposed n' o' q ∈ s.history → o'.operateId ≠ o.operateId) :
    (((s.propose node n o).log ++ (s.propose node n o).proposals).map
      MetaOperate.operateId).Nodup := by
  show ((s.log ++ (s.proposals ++ [o])).map MetaOperate.operateId).Nodup
  rw [← List.append_assoc, List.map_append, List.nodup_append]
  refine ⟨h.once, List.nodup_singleton _, ?_⟩
  intro id hid id' hid'
  obtain ⟨o', ho', rfl⟩ := List.mem_map.1 hid
  obtain ⟨n', q, hold⟩ := h.entries o' ho'
  rw [List.mem_singleton.1 hid']
  exact hfresh hold

theorem Identified.propose {n : MetaNode} {o : MetaOperate} {t : UInt64}
    (h : Identified head start s)
    (hapart : ∀ t t', (head t).toUInt16 = (head t').toUInt16 → head t = head t')
    (hcalls : ∀ n, (s.members n).calls < 2 ^ 48)
    (hn : Waits (s.members (head t)).metaNode o n) :
    Identified head start (s.propose (head t) n o) := by
  have hfresh : ∀ {n' o' q}, .proposed n' o' q ∈ s.history → o'.operateId ≠ o.operateId := by
    intro n' o' q hmem
    rw [hn.operateId]
    exact h.fresh hapart hcalls hmem
  constructor
  · apply forall_setMember (P := fun n' m =>
      m.metaNode.reqIDGen = (startGenerator start n').after m.calls) _ h.generator
    show n.reqIDGen = _
    rw [hn.reqIDGen, h.generator, Idutil.Generator.next_after]
  · intro n' o' q hm
    rcases proposed_cases hm with hold | ⟨rfl, rfl⟩
    · obtain ⟨ht, i, hi, hid⟩ := h.issued hold
      exact ⟨ht, i, hi.trans_le (calls_propose n o n'), hid⟩
    · refine ⟨⟨t, rfl⟩, (s.members (head t)).calls, ?_, ?_⟩
      · simp [Group.propose, Group.setMember]
      · rw [hn.operateId, h.generator]
        rfl
  · -- only the new operation has the new ID
    intro n' o' q n'' o'' q' hm hm' hid
    rcases proposed_cases hm with hold | ⟨rfl, rfl⟩ <;>
      rcases proposed_cases hm' with hold' | ⟨rfl, rfl⟩
    · exact h.unique hold hold' hid
    · exact absurd hid (hfresh hold)
    · exact absurd hid.symm (hfresh hold')
    · exact ⟨rfl, rfl⟩
  · intro o' ho'
    rw [Group.propose, ← List.append_assoc, List.mem_append] at ho'
    rcases ho' with ho' | ho'
    · obtain ⟨n', q, hold⟩ := h.entries o' ho'
      exact ⟨n', q, mem_propose hold⟩
    · cases List.mem_singleton.1 ho'
      exact ⟨head t, s.log.length, proposed_propose n o⟩
  · exact nodup_propose h hfresh
  · apply forall_setMember (P := fun n' m => ∀ p ∈ m.metaNode.waiting,
      ∃ q, .proposed n' p.operate q ∈ (s.propose (head t) n o).history)
    · intro p hp
      rcases hn.waiting p hp with hp | rfl
      · obtain ⟨q, hold⟩ := h.waiting _ p hp
        exact ⟨q, mem_propose hold⟩
      · exact ⟨s.log.length, proposed_propose n p.operate⟩
    · intro n' p hp
      obtain ⟨q, hold⟩ := h.waiting n' p hp
      exact ⟨q, mem_propose hold⟩

theorem Identified.request (h : Identified head start s)
    (hapart : ∀ t t', (head t).toUInt16 = (head t').toUInt16 → head t = head t')
    (hcalls : ∀ n, (s.members n).calls < 2 ^ 48) {t : UInt64} {sync : Bool}
    {r : Except Errno MetaOperate} (hs' : s.request (head t) sync r = some s') :
    Identified head start s' := by
  cases r with
  | error e =>
    cases hs'
    exact h.of_silent (silent_setMember (Silent.refl _)) (List.Subperm.refl _)
      fun _ _ _ => Iff.rfl
  | ok o =>
    obtain ⟨n, o, hn, rfl⟩ := request_ok hs'
    exact h.propose hapart hcalls hn

theorem step_snapshot {index : ℕ}
    (h : step ring a marshal unmarshal codec head s (.snapshot node index) = some s') :
    (s.members node).applied ≤ index ∧ index ≤ s.log.length ∧
      { s with snapshots := s.snapshots ++
        [(index, (s.members node).metaNode.storage.createSnapshot codec)] } = s' := by
  rw [step] at h
  split_ifs at h with hindex
  exact ⟨hindex.1, hindex.2, Option.some.inj h⟩

theorem step_install {i puts : ℕ}
    (h : step ring a marshal unmarshal codec head s (.install node i puts) = some s') :
    ∃ index data storage, s.snapshots[i]? = some (index, data) ∧
      recoverFirst codec puts (s.members node).metaNode.storage data = some storage ∧
      (s.members node).applied ≤ index ∧
      s.setMember node { s.members node with
        metaNode := { (s.members node).metaNode with storage }
        applied := index
        installed := true } = s' := by
  obtain ⟨⟨index, data⟩, hdata, h⟩ := Option.bind_eq_some_iff.1 h
  obtain ⟨storage, hstorage, h⟩ := Option.bind_eq_some_iff.1 h
  split_ifs at h with hindex
  exact ⟨index, data, storage, hdata, hstorage, Nat.le_of_not_lt hindex, Option.some.inj h⟩

/-- Every step keeps the calls apart, whatever the storages do. -/
theorem Identified.step (h : Identified head start s)
    (hapart : ∀ t t', (head t).toUInt16 = (head t').toUInt16 → head t = head t')
    (hcalls : ∀ n, (s.members n).calls < 2 ^ 48) {act : Action}
    (hs' : step ring a marshal unmarshal codec head s act = some s') :
    Identified head start s' := by
  cases act with
  | newTerm node term =>
    cases hs'
    exact h.of_silent (silent_setMember (Silent.refl _)) (List.Subperm.refl _)
      fun _ _ _ => Iff.rfl
  | record clientTerm m sync => exact h.request hapart hcalls hs'
  | delete clientTerm objID => exact h.request hapart hcalls hs'
  | get clientTerm objID =>
    rw [Replication.step] at hs'
    split at hs'
    · cases hs'
      exact h
    · cases hs'
      exact h.of_silent (fun _ => Silent.refl _) (List.Subperm.refl _) fun _ _ _ => by simp
  | commit i =>
    obtain ⟨o, ho, hs'⟩ := Option.bind_eq_some_iff.1 hs'
    cases hs'
    refine h.of_silent (fun _ => Silent.refl _) ?_ fun _ _ _ => Iff.rfl
    -- the entry moves from the proposals to the end of the log
    obtain ⟨hi, rfl⟩ := List.getElem?_eq_some_iff.1 ho
    rw [List.append_assoc]
    exact (List.Perm.append_left _ (List.getElem_cons_eraseIdx_perm hi)).subperm
  | lose i =>
    cases hs'
    refine h.of_silent (fun _ => Silent.refl _) ?_ fun _ _ _ => Iff.rfl
    exact ((List.eraseIdx_sublist _ _).append_left s.log).subperm
  | apply node call =>
    obtain ⟨o, ho, hs'⟩ := Option.bind_eq_some_iff.1 hs'
    cases hs'
    refine h.of_silent (silent_setMember ⟨rfl, rfl, ?_⟩) (List.Subperm.refl _) fun _ _ _ => Iff.rfl
    exact MetaNode.waiting_readEntry_subset _ _
  | snapshot node index =>
    obtain ⟨-, -, rfl⟩ := step_snapshot hs'
    exact h.of_silent (fun _ => Silent.refl _) (List.Subperm.refl _) fun _ _ _ => Iff.rfl
  | install node i puts =>
    obtain ⟨index, data, storage, -, -, -, rfl⟩ := step_install hs'
    exact h.of_silent (silent_setMember (Silent.refl _)) (List.Subperm.refl _)
      fun _ _ _ => Iff.rfl
  | finish node i cloud =>
    obtain ⟨r, hr, hs'⟩ := Option.bind_eq_some_iff.1 hs'
    obtain ⟨n, hn, hs'⟩ := Option.bind_eq_some_iff.1 hs'
    cases hs'
    obtain ⟨r', -, hn⟩ := Option.bind_eq_some_iff.1 hn
    cases hn
    exact h.of_silent (silent_setMember (Silent.refl _)) (List.Subperm.refl _)
      fun _ _ _ => by simp

end

end Ecos.Alaya.Replication
