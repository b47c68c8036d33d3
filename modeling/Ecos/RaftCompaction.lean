import Ecos.Infos
import Ecos.Logic.Machine
import Ecos.RaftPublish

namespace Ecos.Raft
open Go Logic

/-- What the storage returns as an error, and its calls of `Panicf`. -/
inductive Fault where
  | snapOutOfDate
  | compacted
  | outOfBound
  | missingEntry
  deriving DecidableEq, Repr

structure MemoryStorage where
  /-- the index of its snapshot -/
  snapshot : UInt64
  /-- the index of the dummy entry `ents[0]` -/
  offset : UInt64
  /-- the number of entries after the dummy -/
  entries : ℕ
  deriving DecidableEq, Repr

namespace MemoryStorage

def lastIndex (ms : MemoryStorage) : UInt64 := ms.offset + UInt64.ofNat ms.entries

def createSnapshot (ms : MemoryStorage) (i : UInt64) : Except Fault MemoryStorage :=
  if i ≤ ms.snapshot then .error .snapOutOfDate
  else if i > ms.lastIndex then .error .outOfBound
  else .ok { ms with snapshot := i }

def compact (ms : MemoryStorage) (i : UInt64) : Except Fault MemoryStorage :=
  if i ≤ ms.offset then .error .compacted
  else if i > ms.lastIndex then .error .outOfBound
  else .ok { ms with offset := i, entries := ms.entries - (i - ms.offset).toNat }

def applySnapshot (ms : MemoryStorage) (i : UInt64) : Except Fault MemoryStorage :=
  if i ≤ ms.snapshot then .error .snapOutOfDate else .ok ⟨i, i, 0⟩

end MemoryStorage

/-- How the event loop stops: as before, or in a panic over the storage. -/
inductive Stop where
  | exit (e : Exit)
  | panic (f : Fault)
  deriving DecidableEq, Repr

structure Member where
  rc : RaftNode
  raftStorage : MemoryStorage
  deriving DecidableEq, Repr

structure StorageReady where
  ready : Ready
  firstEntry : UInt64
  numEntries : ℕ
  deriving DecidableEq, Repr

def snapshotCatchUpEntriesN : UInt64 := 2000

def compactIndex (appliedIndex : UInt64) : UInt64 :=
  if appliedIndex > snapshotCatchUpEntriesN then appliedIndex - snapshotCatchUpEntriesN else 1

/-- `ApplySnapshot` in the event loop, which only logs its error. -/
def installSnapshot (ms : MemoryStorage) (index : UInt64) : MemoryStorage :=
  if index = 0 then ms
  else
    match ms.applySnapshot index with
    | .ok ms => ms
    | .error _ => ms

section
variable (append : MemoryStorage → UInt64 → ℕ → Except Fault MemoryStorage)
  (unmarshal : Bytes → Option ConfChange)

/-- The body of `serveChannels` before `maybeTriggerSnapshot`, with whether there is a channel to
wait on. The storage appends `numEntries` entries from index `firstEntry` on. -/
def publishReady (m : Member) (rd : StorageReady) : Except Stop (Member × Bool) := do
  let storage := installSnapshot m.raftStorage rd.ready.snapshotIndex
  let (rc, _) ← (publishSnapshot m.rc rd.ready.snapshotIndex).mapError .exit
  let storage ← (append storage rd.firstEntry rd.numEntries).mapError .panic
  let ents ← (entriesToApply rc rd.ready.committedEntries).mapError .exit
  let p ← (publishEntries unmarshal rc ents rd.ready.sendDone).mapError .exit
  return (⟨p.rc, storage⟩, !p.commitC.isEmpty)

/-- `maybeTriggerSnapshot` with its calls of the storage. -/
def triggerSnapshot (m : Member) (waits ctxDone : Bool) : Except Stop Member :=
  if !m.rc.dueSnapshot then .ok m
  else if waits && ctxDone then .ok m
  else do
    let storage ← (m.raftStorage.createSnapshot m.rc.appliedIndex).mapError .panic
    let storage ← (storage.compact (compactIndex m.rc.appliedIndex)).mapError .panic
    return ⟨{ m.rc with snapshotIndex := m.rc.appliedIndex }, storage⟩

def serveStorage (m : Member) (rd : StorageReady) : Except Stop Member := do
  let (m, waits) ← publishReady append unmarshal m rd
  triggerSnapshot m waits rd.ready.waitDone

end

/-- After `replayWAL`: a restored snapshot and the entries of the log after it. -/
def restored (snapshotIndex : UInt64) (entries : ℕ) : Member :=
  ⟨newRaftNode snapshotIndex, ⟨snapshotIndex, snapshotIndex, entries⟩⟩

section
variable {append : MemoryStorage → UInt64 → ℕ → Except Fault MemoryStorage}
  {unmarshal : Bytes → Option ConfChange} {m m' : Member} {rd : StorageReady}

/-- The indices of the node are those of `maybeTriggerSnapshot`. -/
theorem triggerSnapshot_rc {waits ctxDone : Bool} (h : triggerSnapshot m waits ctxDone = .ok m') :
    m'.rc = maybeTriggerSnapshot m.rc waits ctxDone := by
  unfold triggerSnapshot at h
  unfold maybeTriggerSnapshot
  split_ifs at h ⊢
  · cases h
    rfl
  · cases h
    rfl
  · obtain ⟨storage, -, h⟩ := bind_eq_ok h
    obtain ⟨storage', -, h⟩ := bind_eq_ok h
    cases h
    rfl

theorem mapError_eq_ok {ε ε' α : Type} {f : ε → ε'} {x : Except ε α} {a : α}
    (h : x.mapError f = .ok a) : x = .ok a := by
  cases x with
  | error e => cases h
  | ok b =>
    cases h
    rfl

/-- The node does what it does in `serveReady`. -/
theorem serveStorage_rc (h : serveStorage append unmarshal m rd = .ok m') (ccs : List ConfChange)
    (commitC : List CommitMsg) :
    ∃ l, serveReady unmarshal ⟨m.rc, ccs, commitC⟩ rd.ready = .ok l ∧ l.rc = m'.rc := by
  obtain ⟨⟨t, waits⟩, ht, h⟩ := bind_eq_ok h
  obtain ⟨⟨rc, msgs⟩, hsnap, ht⟩ := bind_eq_ok ht
  obtain ⟨ms, -, ht⟩ := bind_eq_ok ht
  obtain ⟨ents, hents, ht⟩ := bind_eq_ok ht
  obtain ⟨p, hp, ht⟩ := bind_eq_ok ht
  cases ht
  have hserve : serveReady unmarshal ⟨m.rc, ccs, commitC⟩ rd.ready =
      .ok ⟨maybeTriggerSnapshot p.rc (!p.commitC.isEmpty) rd.ready.waitDone,
        ccs ++ p.applyConfChangeC, commitC ++ msgs ++ p.commitC⟩ := by
    simp only [serveReady, mapError_eq_ok hsnap, mapError_eq_ok hents, mapError_eq_ok hp, bind,
      Except.bind]
    rfl
  exact ⟨_, hserve, (triggerSnapshot_rc h).symm⟩

theorem published_snapshotIndex (rc : RaftNode) (ents : List Entry) :
    (rc.published ents).snapshotIndex = rc.snapshotIndex := by
  unfold RaftNode.published
  split <;> rfl

theorem published_snapCount (rc : RaftNode) (ents : List Entry) :
    (rc.published ents).snapCount = rc.snapCount := by
  unfold RaftNode.published
  split <;> rfl

namespace MemoryStorage

variable {ms : MemoryStorage} {first n : ℕ}

def last (ms : MemoryStorage) : ℕ := ms.offset.toNat + ms.entries

theorem toNat_lastIndex (h : ms.last < 2 ^ 64) : ms.lastIndex.toNat = ms.last := by
  unfold last at h ⊢
  rw [lastIndex, UInt64.toNat_add, UInt64.toNat_ofNat']
  omega

end MemoryStorage

/-- What is assumed of `Append`: entries that start after the offset and leave no gap replace what
is there from their first index on. -/
structure Appends (append : MemoryStorage → UInt64 → ℕ → Except Fault MemoryStorage) : Prop where
  nil : ∀ ms first, append ms first 0 = .ok ms
  entries : ∀ ms first n, ms.offset.toNat < first → first ≤ ms.last + 1 → n ≠ 0 →
    first + n < 2 ^ 64 → ms.last + 1 < 2 ^ 64 → append ms (UInt64.ofNat first) n =
      .ok { ms with entries := first - 1 + n - ms.offset.toNat }

/-- What the raft library puts into a Ready for the storage: the committed entries of a delivery,
and `n` new entries from index `first` on. -/
structure StorageDelivery where
  delivery : Delivery
  first : ℕ := 0
  n : ℕ := 0
  deriving DecidableEq, Repr

namespace StorageDelivery

def ready (L : Log) (d : StorageDelivery) : StorageReady :=
  ⟨d.delivery.ready L, UInt64.ofNat d.first, d.n⟩

def last (d : StorageDelivery) (m : Member) : ℕ :=
  if d.n = 0 then d.delivery.base m.raftStorage.last else d.first + d.n - 1

/-- New entries replace nothing that is applied and leave no gap, and what is committed is in the
storage when the new entries are. -/
structure Possible (m : Member) (d : StorageDelivery) : Prop where
  committed : d.delivery.Admissible m.rc.appliedIndex.toNat
  fresh : d.n ≠ 0 → d.delivery.base m.rc.appliedIndex.toNat < d.first
  gapless : d.n ≠ 0 → d.first ≤ d.delivery.base m.raftStorage.last + 1
  bounded : d.first + d.n < 2 ^ 64
  stored : d.delivery.lo + d.delivery.n ≤ d.last m + 1

end StorageDelivery

structure Member.Sound (m : Member) : Prop where
  snapshot : m.raftStorage.snapshot = m.rc.snapshotIndex
  snapshot_le : m.rc.snapshotIndex ≤ m.rc.appliedIndex
  offset_le : m.raftStorage.offset ≤ m.rc.snapshotIndex
  applied_le : m.rc.appliedIndex.toNat ≤ m.raftStorage.last
  bound : m.raftStorage.last + 1 < 2 ^ 64
  snapCount : m.rc.snapCount = defaultSnapshotCount

theorem sound_restored {i : UInt64} {entries : ℕ} (h : i.toNat + entries + 1 < 2 ^ 64) :
    (restored i entries).Sound where
  snapshot := rfl
  snapshot_le := UInt64.le_refl i
  offset_le := UInt64.le_refl i
  applied_le := Nat.le_add_right _ _
  bound := h
  snapCount := rfl

namespace Member.Sound

/-- The storage and the node install the same snapshot. -/
theorem install (hm : m.Sound) {d : Delivery} (hd : d.Admissible m.rc.appliedIndex.toNat) :
    ∃ rc msgs, publishSnapshot m.rc (UInt64.ofNat d.snapshot) = .ok (rc, msgs) ∧
      Sound ⟨rc, installSnapshot m.raftStorage (UInt64.ofNat d.snapshot)⟩ ∧
      rc.appliedIndex.toNat = d.base m.rc.appliedIndex.toNat ∧
      (installSnapshot m.raftStorage (UInt64.ofNat d.snapshot)).last =
        d.base m.raftStorage.last := by
  rcases hd.snapshot with h0 | ⟨hlt, hb⟩
  · have hzero : UInt64.ofNat d.snapshot = 0 := by rw [h0]; rfl
    rw [hzero, Delivery.base, Delivery.base, if_pos h0, if_pos h0]
    exact ⟨m.rc, [], rfl, hm, rfl, rfl⟩
  · have hnat : (UInt64.ofNat d.snapshot).toNat = d.snapshot :=
      UInt64.toNat_ofNat_of_lt' (by simp [UInt64.size]; omega)
    have hne : UInt64.ofNat d.snapshot ≠ 0 := by
      intro h
      rw [h, UInt64.toNat_zero] at hnat
      omega
    have hnew : ¬UInt64.ofNat d.snapshot ≤ m.rc.appliedIndex := by
      rw [UInt64.le_iff_toNat_le, hnat]
      omega
    have hstorage : ¬UInt64.ofNat d.snapshot ≤ m.raftStorage.snapshot := by
      rw [hm.snapshot]
      exact fun h => hnew (UInt64.le_trans h hm.snapshot_le)
    have hinstall : installSnapshot m.raftStorage (UInt64.ofNat d.snapshot) =
        ⟨UInt64.ofNat d.snapshot, UInt64.ofNat d.snapshot, 0⟩ := by
      rw [installSnapshot, if_neg hne, MemoryStorage.applySnapshot, if_neg hstorage]
    rw [hinstall, Delivery.base, Delivery.base, if_neg (by omega), if_neg (by omega)]
    refine ⟨{ m.rc with
      snapshotIndex := UInt64.ofNat d.snapshot, appliedIndex := UInt64.ofNat d.snapshot },
      [.loadSnapshot], by rw [publishSnapshot, if_neg hne, if_neg hnew],
      ⟨rfl, UInt64.le_refl _, UInt64.le_refl _, Nat.le_refl _, ?_, hm.snapCount⟩, hnat, hnat⟩
    rw [MemoryStorage.last, hnat]
    exact hb

/-- The new entries are appended after what is applied. -/
theorem appended (happend : Appends append) (hm : m.Sound) {d : StorageDelivery}
    (hfresh : d.n ≠ 0 → m.rc.appliedIndex.toNat < d.first)
    (hgap : d.n ≠ 0 → d.first ≤ m.raftStorage.last + 1) (hb : d.first + d.n < 2 ^ 64) :
    ∃ ms, append m.raftStorage (UInt64.ofNat d.first) d.n = .ok ms ∧ Sound ⟨m.rc, ms⟩ ∧
      ms.last = if d.n = 0 then m.raftStorage.last else d.first + d.n - 1 := by
  by_cases hn : d.n = 0
  · refine ⟨m.raftStorage, ?_, hm, (if_pos hn).symm⟩
    rw [hn, happend.nil]
  · have hoffset : m.raftStorage.offset.toNat ≤ m.rc.appliedIndex.toNat :=
      UInt64.le_iff_toNat_le.mp (UInt64.le_trans hm.offset_le hm.snapshot_le)
    have hlow := hfresh hn
    have hlast : MemoryStorage.last { m.raftStorage with
        entries := d.first - 1 + d.n - m.raftStorage.offset.toNat } = d.first + d.n - 1 := by
      dsimp only [MemoryStorage.last]
      omega
    refine ⟨_, happend.entries _ _ _ (by omega) (hgap hn) hn hb hm.bound,
      ⟨hm.snapshot, hm.snapshot_le, hm.offset_le, ?_, ?_, hm.snapCount⟩, ?_⟩
    · rw [hlast]
      exact (by omega : m.rc.appliedIndex.toNat ≤ d.first + d.n - 1)
    · rw [hlast]
      omega
    · rw [hlast, if_neg hn]

/-- Entries are published up to an index that the storage has. -/
theorem published (hm : m.Sound) {rc : RaftNode} (happlied : m.rc.appliedIndex ≤ rc.appliedIndex)
    (hlast : rc.appliedIndex.toNat ≤ m.raftStorage.last)
    (hsnapshot : rc.snapshotIndex = m.rc.snapshotIndex) (hcount : rc.snapCount = m.rc.snapCount) :
    Sound ⟨rc, m.raftStorage⟩ where
  snapshot := hm.snapshot.trans hsnapshot.symm
  snapshot_le := hsnapshot ▸ UInt64.le_trans hm.snapshot_le happlied
  offset_le := hsnapshot ▸ hm.offset_le
  applied_le := hlast
  bound := hm.bound
  snapCount := hcount.trans hm.snapCount

variable (unmarshal) in
/-- What comes before `maybeTriggerSnapshot` keeps the indices in order, and the storage does not
panic there. -/
theorem publishReady (happend : Appends append) (hm : m.Sound) (L : Log) {d : StorageDelivery}
    (hd : d.Possible m) :
    (∃ e, Raft.publishReady append unmarshal m (d.ready L) = .error (.exit e)) ∨
      ∃ t waits, Raft.publishReady append unmarshal m (d.ready L) = .ok (t, waits) ∧ t.Sound := by
  -- the snapshot is installed before the new entries, and those before anything is published
  obtain ⟨rc, msgs, hsnap, hm₁, happlied, hlast⟩ := hm.install hd.committed
  have hm₁bound := hm₁.bound
  have hm₁applied := hm₁.applied_le
  obtain ⟨ms, hms, hm₂, hmslast⟩ := hm₁.appended happend (d := d) (by rw [happlied]; exact hd.fresh)
    (by rw [hlast]; exact hd.gapless) hd.bounded
  have hbase : d.delivery.base m.rc.appliedIndex.toNat + 1 < 2 ^ 64 := by
    rw [← happlied]
    exact (Nat.succ_le_succ hm₁applied).trans_lt hm₁bound
  have hents := entriesToApply_slice L happlied hbase hd.committed.contiguous hd.committed.bounded
  simp only [Raft.publishReady, StorageDelivery.ready, Delivery.ready, hsnap, hms, hents, bind,
    Except.bind, Except.mapError]
  generalize hk : d.delivery.base m.rc.appliedIndex.toNat = a at happlied hbase hents
  cases hp : publishEntries unmarshal rc (slice L (a + 1) (d.delivery.lo + d.delivery.n - (a + 1)))
      d.delivery.sendDone with
  | error e => exact .inl ⟨e, rfl⟩
  | ok p =>
    obtain ⟨hprc, -⟩ := publishEntries_ok hp
    have hnext : p.rc.appliedIndex.toNat = max a (d.delivery.lo + d.delivery.n - 1) := by
      rw [hprc]
      exact published_rest L happlied hd.committed.bounded
    have hstored := hd.stored
    rw [StorageDelivery.last, ← hlast, ← hmslast] at hstored
    have hmsapplied : rc.appliedIndex.toNat ≤ ms.last := hm₂.applied_le
    refine .inr ⟨_, _, rfl, hm₂.published ?_ ?_ ?_ ?_⟩
    · rw [UInt64.le_iff_toNat_le, hnext, happlied]
      omega
    · dsimp only
      omega
    · rw [hprc]
      exact published_snapshotIndex rc _
    · rw [hprc]
      exact published_snapCount rc _

end Member.Sound

namespace Member

/-- The inequalities that `CreateSnapshot` and `Compact` ask for. -/
structure Granted (m : Member) : Prop where
  snapshot_lt : m.raftStorage.snapshot < m.rc.appliedIndex
  applied_le : m.rc.appliedIndex ≤ m.raftStorage.lastIndex
  offset_lt : m.raftStorage.offset < compactIndex m.rc.appliedIndex
  compact_le : compactIndex m.rc.appliedIndex ≤ m.rc.appliedIndex

/-- The threshold is no lower than the number of entries that a compaction leaves. -/
theorem Sound.granted (hm : m.Sound) (hdue : m.rc.dueSnapshot = true) : m.Granted := by
  have hle := UInt64.le_iff_toNat_le.mp hm.snapshot_le
  have hoffset := UInt64.le_iff_toNat_le.mp hm.offset_le
  have happlied := hm.applied_le
  have hbound := hm.bound
  have hlast : m.raftStorage.lastIndex.toNat = m.raftStorage.last :=
    MemoryStorage.toNat_lastIndex (by omega)
  have hfar : m.rc.snapshotIndex.toNat + 2000 < m.rc.appliedIndex.toNat := by
    simp only [RaftNode.dueSnapshot, hm.snapCount, Bool.not_eq_true', decide_eq_false_iff_not,
      UInt64.le_iff_toNat_le, not_le, UInt64.toNat_sub_of_le _ _ hm.snapshot_le] at hdue
    have hcount : defaultSnapshotCount.toNat = 2000 := rfl
    omega
  have hcompact : (compactIndex m.rc.appliedIndex).toNat = m.rc.appliedIndex.toNat - 2000 := by
    have hcatchUp : snapshotCatchUpEntriesN.toNat = 2000 := rfl
    have hlt : snapshotCatchUpEntriesN < m.rc.appliedIndex := by
      rw [UInt64.lt_iff_toNat_lt]
      omega
    rw [compactIndex, if_pos hlt, UInt64.toNat_sub_of_le _ _ (UInt64.le_of_lt hlt), hcatchUp]
  refine ⟨?_, ?_, ?_, ?_⟩
  · rw [hm.snapshot, UInt64.lt_iff_toNat_lt]
    omega
  · rw [UInt64.le_iff_toNat_le, hlast]
    exact happlied
  · rw [UInt64.lt_iff_toNat_lt, hcompact]
    omega
  · rw [UInt64.le_iff_toNat_le, hcompact]
    omega

theorem Granted.createSnapshot (h : m.Granted) :
    m.raftStorage.createSnapshot m.rc.appliedIndex =
      .ok { m.raftStorage with snapshot := m.rc.appliedIndex } := by
  rw [MemoryStorage.createSnapshot, if_neg (UInt64.not_le.mpr h.snapshot_lt),
    if_neg (UInt64.not_lt.mpr h.applied_le)]

theorem Granted.compact (h : m.Granted) (snapshot : UInt64) :
    MemoryStorage.compact { m.raftStorage with snapshot } (compactIndex m.rc.appliedIndex) =
      .ok ⟨snapshot, compactIndex m.rc.appliedIndex, m.raftStorage.entries -
        (compactIndex m.rc.appliedIndex - m.raftStorage.offset).toNat⟩ := by
  rw [MemoryStorage.compact, if_neg (UInt64.not_le.mpr h.offset_lt)]
  exact if_neg (UInt64.not_lt.mpr (UInt64.le_trans h.compact_le h.applied_le))

/-- `maybeTriggerSnapshot` does not panic, and it leaves the indices in order. -/
theorem Sound.triggerSnapshot (hm : m.Sound) (waits ctxDone : Bool) :
    ∃ m', Raft.triggerSnapshot m waits ctxDone = .ok m' ∧ m'.Sound := by
  unfold Raft.triggerSnapshot
  split_ifs with hdue hdone
  · exact ⟨m, rfl, hm⟩
  · exact ⟨m, rfl, hm⟩
  · have hgranted := hm.granted (by simpa using hdue)
    simp only [hgranted.createSnapshot, hgranted.compact, bind, Except.bind, Except.mapError]
    have happlied := hm.applied_le
    have hlt := UInt64.lt_iff_toNat_lt.mp hgranted.offset_lt
    have hle := UInt64.le_iff_toNat_le.mp hgranted.compact_le
    have hsub := UInt64.toNat_sub_of_le _ _ (UInt64.le_of_lt hgranted.offset_lt)
    -- a compaction drops entries at the front only
    have hlast : MemoryStorage.last ⟨m.rc.appliedIndex, compactIndex m.rc.appliedIndex,
        m.raftStorage.entries - (compactIndex m.rc.appliedIndex - m.raftStorage.offset).toNat⟩ =
        m.raftStorage.last := by
      unfold MemoryStorage.last at happlied ⊢
      rw [hsub]
      dsimp only
      omega
    refine ⟨_, rfl, rfl, UInt64.le_refl _, hgranted.compact_le, ?_, ?_, hm.snapCount⟩
    · rw [hlast]
      exact happlied
    · rw [hlast]
      exact hm.bound

variable (unmarshal) in
theorem Sound.serveStorage (happend : Appends append) (hm : m.Sound) (L : Log)
    {d : StorageDelivery} (hd : d.Possible m) :
    (∃ e, Raft.serveStorage append unmarshal m (d.ready L) = .error (.exit e)) ∨
      ∃ m', Raft.serveStorage append unmarshal m (d.ready L) = .ok m' ∧ m'.Sound := by
  rcases hm.publishReady unmarshal happend L hd with ⟨e, he⟩ | ⟨t, waits, ht, hsound⟩
  · refine .inl ⟨e, ?_⟩
    rw [Raft.serveStorage, he]
    rfl
  · obtain ⟨m', hm', hsound'⟩ := hsound.triggerSnapshot waits (d.ready L).ready.waitDone
    refine .inr ⟨m', ?_, hsound'⟩
    rw [Raft.serveStorage, ht]
    exact hm'

end Member

def storageStep (append : MemoryStorage → UInt64 → ℕ → Except Fault MemoryStorage)
    (unmarshal : Bytes → Option ConfChange) (L : Log) (m : Member) (d : StorageDelivery) :
    Option Member :=
  (serveStorage append unmarshal m (d.ready L)).toOption

theorem sound_run (happend : Appends append) {L : Log} {i : UInt64} {entries : ℕ}
    {ds : List StorageDelivery} (hi : i.toNat + entries + 1 < 2 ^ 64)
    (hds : Meets (storageStep append unmarshal L) (fun m d => d.Possible m) (restored i entries) ds)
    (hrun : run (storageStep append unmarshal L) (restored i entries) ds = some m) : m.Sound := by
  refine run_invariant (fun m d m' hm hd h => ?_) (sound_restored hi) hds hrun
  have hok := toOption_eq_some h
  rcases hm.serveStorage unmarshal happend L hd with ⟨e, he⟩ | ⟨m₁, hm₁, hsound⟩
  · rw [he] at hok
    cases hok
  · rw [hm₁] at hok
    cases hok
    exact hsound

/-- After any run no Ready makes the storage panic. Before `maybeTriggerSnapshot` the difference of
the indices does not underflow, and where it is over the threshold the snapshot and the compaction
are granted. -/
theorem snapshots_granted (append : MemoryStorage → UInt64 → ℕ → Except Fault MemoryStorage)
    (happend : Appends append) (unmarshal : Bytes → Option ConfChange) (L : Log) (i : UInt64)
    (entries : ℕ) (hi : i.toNat + entries + 1 < 2 ^ 64) (ds : List StorageDelivery)
    (hds : Meets (storageStep append unmarshal L) (fun m d => d.Possible m) (restored i entries) ds)
    {m : Member} (hrun : run (storageStep append unmarshal L) (restored i entries) ds = some m)
    {d : StorageDelivery} (hd : d.Possible m) :
    (∀ f, serveStorage append unmarshal m (d.ready L) ≠ .error (.panic f)) ∧
    ∀ t waits, publishReady append unmarshal m (d.ready L) = .ok (t, waits) →
      t.rc.snapshotIndex ≤ t.rc.appliedIndex ∧
      (t.rc.dueSnapshot = true → t.Granted ∧
        ∃ ms ms', t.raftStorage.createSnapshot t.rc.appliedIndex = .ok ms ∧
          ms.compact (compactIndex t.rc.appliedIndex) = .ok ms') := by
  have hm := sound_run happend hi hds hrun
  refine ⟨fun f hf => ?_, fun t waits ht => ?_⟩
  · rcases hm.serveStorage unmarshal happend L hd with ⟨e, he⟩ | ⟨m', hm', -⟩
    · rw [he] at hf
      cases hf
    · rw [hm'] at hf
      cases hf
  · rcases hm.publishReady unmarshal happend L hd with ⟨e, he⟩ | ⟨t', w, ht', hsound⟩
    · rw [he] at ht
      cases ht
    · rw [ht'] at ht
      cases ht
      exact ⟨hsound.snapshot_le, fun hdue => ⟨hsound.granted hdue, _, _,
        (hsound.granted hdue).createSnapshot, (hsound.granted hdue).compact _⟩⟩

end

/-- An `Append` that does what is assumed. -/
def MemoryStorage.append (ms : MemoryStorage) (first : UInt64) (n : ℕ) :
    Except Fault MemoryStorage :=
  if n = 0 then .ok ms
  else if ms.offset < first ∧ first ≤ ms.lastIndex + 1 then
    .ok { ms with entries := first.toNat - 1 + n - ms.offset.toNat }
  else .error .missingEntry

theorem MemoryStorage.appends_append : Appends MemoryStorage.append where
  nil _ _ := if_pos rfl
  entries ms first n hlow hgap hn hbound hlast := by
    have hfirst : (UInt64.ofNat first).toNat = first :=
      UInt64.toNat_ofNat_of_lt' (by simp only [UInt64.size]; omega)
    have hroom : ms.offset < UInt64.ofNat first ∧ UInt64.ofNat first ≤ ms.lastIndex + 1 := by
      rw [UInt64.lt_iff_toNat_lt, UInt64.le_iff_toNat_le, hfirst, UInt64.toNat_add,
        toNat_lastIndex (by omega), UInt64.toNat_one]
      omega
    rw [MemoryStorage.append, if_neg hn, if_pos hroom, hfirst]

def emptyLog : Log := fun _ => (.normal, [])

def firstBatch : StorageDelivery := ⟨⟨0, 1, 2001, false, false⟩, 1, 2001⟩

theorem snapshots_granted_firstBatch :
    publishReady MemoryStorage.append (fun _ => none) (restored 0 0) (firstBatch.ready emptyLog) =
        .ok (⟨⟨2001, 0, 2000⟩, ⟨0, 0, 2001⟩⟩, false) ∧
      Member.Granted ⟨⟨2001, 0, 2000⟩, ⟨0, 0, 2001⟩⟩ := by
  have hready : publishReady MemoryStorage.append (fun _ => none) (restored 0 0)
      (firstBatch.ready emptyLog) =
      .ok (⟨⟨2001, 0, 2000⟩, ⟨0, 0, 2001⟩⟩, false) := by decide +kernel
  have hpossible : firstBatch.Possible (restored 0 0) := by
    refine ⟨⟨.inl rfl, ?_, ?_⟩, fun _ => ?_, fun _ => ?_, ?_, ?_⟩ <;> decide
  have hgranted :=
    snapshots_granted MemoryStorage.append MemoryStorage.appends_append (fun _ => none) emptyLog 0 0
      (by decide) [] trivial rfl hpossible
  exact ⟨hready, ((hgranted.2 _ _ hready).2 (by decide)).1⟩

end Ecos.Raft
