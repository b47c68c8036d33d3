import Ecos.RaftStorage

namespace Ecos.Raft
open Go Logic Etcd

structure WalNode where
  rc : RaftNode
  raftStorage : LogStorage
  disk : Disk LogEntry
  /-- the hard state that was saved last since the log was opened -/
  walState : HardState
  deriving DecidableEq, Repr

structure WalReady where
  ready : Ready
  /-- the term of its snapshot -/
  snapshotTerm : ℕ := 0
  hardState : HardState := {}
  firstEntry : ℕ := 0
  entries : List LogEntry := []
  deriving DecidableEq, Repr

def WalReady.snapshot (rd : WalReady) : SnapMeta := ⟨rd.ready.snapshotIndex.toNat, rd.snapshotTerm⟩

section
variable (lib : Library)

def saveSnap (s : SnapMeta) : List (Write LogEntry) := .file s :: lib.wal.saveSnapshot s

def saveReady (n : WalNode) (rd : WalReady) : List (Write LogEntry) :=
  lib.wal.save n.walState rd.hardState rd.firstEntry rd.entries ++
    if rd.ready.snapshotIndex = 0 then [] else saveSnap lib rd.snapshot

/-- `ApplySnapshot`, whose error is only logged. -/
def installLog (ms : LogStorage) (s : SnapMeta) : LogStorage :=
  match lib.storage.applySnapshot ms s with
  | .ok ms => ms
  | .error _ => ms

/-- The body of `serveChannels` before `maybeTriggerSnapshot`. -/
def publishWal (unmarshal : Bytes → Option ConfChange) (n : WalNode) (rd : WalReady) :
    Except Stop (WalNode × Bool) := do
  let disk := n.disk.writes (saveReady lib n rd)
  let walState := if rd.hardState = {} then n.walState else rd.hardState
  let storage := if rd.ready.snapshotIndex = 0 then n.raftStorage
    else installLog lib n.raftStorage rd.snapshot
  let (rc, _) ← (publishSnapshot n.rc rd.ready.snapshotIndex).mapError .exit
  let storage ← (lib.storage.append storage rd.firstEntry rd.entries).mapError .panic
  let ents ← (entriesToApply rc rd.ready.committedEntries).mapError .exit
  let p ← (publishEntries unmarshal rc ents rd.ready.sendDone).mapError .exit
  return (⟨p.rc, storage, disk, walState⟩, !p.commitC.isEmpty)

/-- Whether `maybeTriggerSnapshot` takes a snapshot. -/
def triggers (rc : RaftNode) (waits ctxDone : Bool) : Bool := rc.dueSnapshot && !(waits && ctxDone)

def triggerWrites (n : WalNode) (waits ctxDone : Bool) : List (Write LogEntry) :=
  if triggers n.rc waits ctxDone then
    match lib.storage.createSnapshot n.raftStorage n.rc.appliedIndex.toNat with
    | .ok storage => saveSnap lib storage.snapshot
    | .error _ => []
  else []

def triggerWal (n : WalNode) (waits ctxDone : Bool) : Except Stop WalNode :=
  if triggers n.rc waits ctxDone then do
    let storage ← (lib.storage.createSnapshot n.raftStorage n.rc.appliedIndex.toNat).mapError .panic
    let disk := n.disk.writes (saveSnap lib storage.snapshot)
    let storage ←
      (lib.storage.compact storage (compactIndex n.rc.appliedIndex).toNat).mapError .panic
    return { n with
      rc := { n.rc with snapshotIndex := n.rc.appliedIndex }, raftStorage := storage, disk := disk }
  else .ok n

def serveWal (unmarshal : Bytes → Option ConfChange) (n : WalNode) (rd : WalReady) :
    Except Stop WalNode := do
  let (n, waits) ← publishWal lib unmarshal n rd
  triggerWal lib n waits rd.ready.waitDone

def readyWrites (unmarshal : Bytes → Option ConfChange) (n : WalNode) (rd : WalReady) :
    List (Write LogEntry) :=
  saveReady lib n rd ++ match publishWal lib unmarshal n rd with
    | .ok (n, waits) => triggerWrites lib n waits rd.ready.waitDone
    | .error _ => []

inductive StartFault where
  | wal (e : WalError)
  | storage (f : Fault)
  /-- the raft library panics -/
  | startNode
  deriving DecidableEq, Repr

def loadSnapshot (disk : Disk LogEntry) : Option SnapMeta :=
  lib.wal.loadNewestAvailable disk.files (lib.wal.validSnapshotEntries disk.wal)

/-- `replayWAL`, with `openWAL` at the snapshot or at the start of the log. -/
def replayWAL (disk : Disk LogEntry) : Except StartFault (LogStorage × HardState) := do
  let snapshot := loadSnapshot lib disk
  let walsnap := snapshot.getD {}
  let (st, ents) ← (lib.wal.readAll walsnap disk.wal).mapError .wal
  let storage : LogStorage := match snapshot with
    | some s => installLog lib lib.storage.newMemoryStorage s
    | none => lib.storage.newMemoryStorage
  let storage ← (lib.storage.append storage (walsnap.index + 1) ents).mapError .storage
  return (storage, st)

def startRaft (disk : Disk LogEntry) : Except StartFault WalNode := do
  let (storage, st) ← replayWAL lib disk
  if lib.storage.startNode storage st then
    return ⟨newRaftNode (UInt64.ofNat storage.snapshot.index), storage, disk, {}⟩
  else throw .startNode

end

namespace LogStorage

variable {ms : LogStorage}

def after (ms : LogStorage) : List LogEntry := ms.ents.drop (ms.snapshot.index - ms.dummy.index)

structure Ordered (ms : LogStorage) : Prop where
  dummy_le : ms.dummy.index ≤ ms.snapshot.index
  snapshot_le : ms.snapshot.index ≤ ms.lastIndex

theorem Ordered.last_after (h : ms.Ordered) :
    ms.snapshot.index + ms.after.length = ms.lastIndex := by
  have hdummy := h.dummy_le
  have hsnapshot := h.snapshot_le
  unfold lastIndex at hsnapshot ⊢
  rw [after, List.length_drop]
  omega

variable {lib : Library}

/-- New entries after the snapshot replace the old ones from their first index on. -/
theorem Ordered.append (h : ms.Ordered) (hlib : lib.Lawful) (first : ℕ) (es : List LogEntry)
    (hes : es ≠ [] → ms.snapshot.index < first ∧ first ≤ ms.lastIndex + 1) :
    ∃ ms', lib.storage.append ms first es = .ok ms' ∧ ms'.Ordered ∧ ms'.snapshot = ms.snapshot ∧
      ms'.after =
        if es = [] then ms.after else ms.after.take (first - ms.snapshot.index - 1) ++ es := by
  by_cases hnil : es = []
  · subst hnil
    exact ⟨ms, hlib.storage.append_nil ms first, h, rfl, (if_pos rfl).symm⟩
  · obtain ⟨hlow, hgap⟩ := hes hnil
    have hdummy := h.dummy_le
    refine ⟨{ ms with ents := ms.ents.take (first - ms.dummy.index - 1) ++ es },
      hlib.storage.append ms first es hnil (hdummy.trans_lt hlow) hgap, ⟨hdummy, ?_⟩, rfl, ?_⟩
    · unfold lastIndex at hgap
      simp only [lastIndex, List.length_append, List.length_take]
      omega
    · unfold lastIndex at hgap
      rw [if_neg hnil]
      simp only [after]
      rw [List.drop_append_of_le_length (by rw [List.length_take]; omega), List.drop_take]
      congr 2
      omega

/-- After a restored snapshot every entry that was read is new. -/
theorem append_restored (hlib : lib.Lawful) (s : SnapMeta) (ents : List LogEntry) :
    lib.storage.append ⟨s, s, []⟩ (s.index + 1) ents = .ok ⟨s, s, ents⟩ := by
  by_cases hnil : ents = []
  · rw [hnil, hlib.storage.append_nil]
  · rw [hlib.storage.append _ _ _ hnil (Nat.lt_succ_self _) (Nat.le_refl _), List.take_nil]
    rfl

/-- A snapshot at `s`, with the entries up to `c` compacted. -/
theorem Ordered.compacted (h : ms.Ordered) (s : SnapMeta) (hlow : ms.snapshot.index ≤ s.index)
    (hlast : s.index ≤ ms.lastIndex) (c : SnapMeta) (hc : ms.dummy.index ≤ c.index)
    (hcs : c.index ≤ s.index) :
    (⟨s, c, ms.ents.drop (c.index - ms.dummy.index)⟩ : LogStorage).Ordered ∧
      (⟨s, c, ms.ents.drop (c.index - ms.dummy.index)⟩ : LogStorage).after =
        ms.after.drop (s.index - ms.snapshot.index) := by
  have hdummy := h.dummy_le
  unfold lastIndex at hlast
  refine ⟨⟨hcs, ?_⟩, ?_⟩
  · simp only [lastIndex, List.length_drop]
    omega
  · simp only [after, List.drop_drop]
    congr 1
    omega

theorem installLog_eq (hlib : lib.Lawful) {s : SnapMeta} (h : ms.snapshot.index < s.index) :
    installLog lib ms s = ⟨s, s, []⟩ := by
  rw [installLog, hlib.storage.applySnapshot ms s h]

end LogStorage

def WalNode.image (n : WalNode) : Image LogEntry :=
  ⟨n.raftStorage.snapshot, n.raftStorage.after, lastState n.disk.wal⟩

/-- What the raft library puts into a Ready: a delivery of committed entries, and what has to be
saved. -/
structure WalDelivery where
  delivery : Delivery
  snapshotTerm : ℕ := 0
  hardState : HardState := {}
  first : ℕ := 0
  entries : List LogEntry := []
  deriving DecidableEq, Repr

namespace WalDelivery

def ready (L : Log) (d : WalDelivery) : WalReady :=
  ⟨d.delivery.ready L, d.snapshotTerm, d.hardState, d.first, d.entries⟩

def snapshot (d : WalDelivery) : SnapMeta := ⟨d.delivery.snapshot, d.snapshotTerm⟩

def saved (d : WalDelivery) (im : Image LogEntry) : Image LogEntry :=
  if d.delivery.snapshot = 0 then im.saved d.hardState d.first d.entries
  else ⟨d.snapshot, d.entries, d.hardState⟩

def kept (d : WalDelivery) (im : Image LogEntry) : ℕ :=
  if d.delivery.snapshot ≠ 0 then min im.last d.delivery.snapshot
  else if d.entries = [] then im.last
  else d.first - 1

/-- Nothing that is committed is replaced, and the entries leave no gap. A snapshot is ahead of the
commit index and comes with a hard state that covers it. The commit index does not fall, and a vote
is not changed within its term. The terms of committed entries do not fall. -/
structure Possible (n : WalNode) (d : WalDelivery) : Prop where
  committed : d.delivery.Admissible n.rc.appliedIndex.toNat
  entries : d.entries ≠ [] → d.delivery.base n.image.state.commit < d.first ∧
    d.first ≤ d.delivery.base n.image.last + 1
  install : d.delivery.snapshot ≠ 0 → n.image.state.commit < d.delivery.snapshot ∧
    n.image.snapshot.term ≤ d.snapshotTerm ∧ d.hardState ≠ {} ∧
    d.delivery.snapshot ≤ d.hardState.commit
  rises : n.image.state.commit ≤ (d.saved n.image).state.commit
  present : (d.saved n.image).state.commit ≤ (d.saved n.image).last
  election : d.hardState ≠ {} → n.image.state.term < d.hardState.term ∨
    n.image.state.term = d.hardState.term ∧
      (n.image.state.vote = 0 ∨ n.image.state.vote = d.hardState.vote)
  stored : d.delivery.lo + d.delivery.n ≤ (d.saved n.image).state.commit + 1
  terms : ∀ i ≤ (d.saved n.image).state.commit, ∀ e ∈ (d.saved n.image).stored? i,
    (d.saved n.image).snapshot.term ≤ e.term
  bounded : (d.saved n.image).state.commit + 1 < 2 ^ 64

end WalDelivery

/-- The disk holds what the node takes for saved, up to a commit index that is not synced. -/
structure WalNode.Safe (n : WalNode) : Prop where
  holds : Holds n.disk.wal n.disk.files n.image
  survives : Survives n.disk n.image.Same
  synced_le : n.disk.synced ≤ n.disk.wal.length
  ordered : n.raftStorage.Ordered
  snapshot : n.rc.snapshotIndex.toNat = n.raftStorage.snapshot.index
  snapshot_le : n.rc.snapshotIndex ≤ n.rc.appliedIndex
  applied_le : n.rc.appliedIndex.toNat ≤ n.image.state.commit
  bound : n.image.state.commit + 1 < 2 ^ 64
  snapCount : n.rc.snapCount = defaultSnapshotCount
  walState : n.walState = {} ∨
    n.walState.term = n.image.state.term ∧ n.walState.vote = n.image.state.vote

variable {lib : Library} {unmarshal : Bytes → Option ConfChange} {L : Log} {n t : WalNode}
  {d : WalDelivery}

theorem WalNode.Safe.last_image (hn : n.Safe) : n.image.last = n.raftStorage.lastIndex :=
  hn.ordered.last_after

/-- The storage is the restored snapshot with the entries that were read after it. -/
theorem replayWAL_eq (hlib : lib.Lawful) {disk : Disk LogEntry} {s : SnapMeta} {st : HardState}
    {ents : List LogEntry} (hload : (loadSnapshot lib disk).getD {} = s)
    (hzero : s = {} ∨ 0 < s.index) (hread : lib.wal.readAll s disk.wal = .ok (st, ents)) :
    replayWAL lib disk = .ok (⟨s, s, ents⟩, st) := by
  have hstorage : (match loadSnapshot lib disk with
      | some s => installLog lib lib.storage.newMemoryStorage s
      | none => lib.storage.newMemoryStorage) = (⟨s, s, []⟩ : LogStorage) := by
    rw [hlib.storage.newMemoryStorage]
    cases hsome : loadSnapshot lib disk with
    | none =>
      rw [hsome] at hload
      rw [← hload]
      rfl
    | some s' =>
      rw [hsome, Option.getD_some] at hload
      subst hload
      rcases hzero with rfl | hlt
      · obtain ⟨f, hf⟩ := hlib.storage.applySnapshot_old {} {} (Nat.le_refl _)
        dsimp only
        rw [installLog, hf]
      · exact LogStorage.installLog_eq hlib hlt
  simp only [replayWAL, hload, hread, hstorage, LogStorage.append_restored hlib, Except.mapError,
    bind, Except.bind, pure, Except.pure]

theorem startRaft_eq (hlib : lib.Lawful) {disk : Disk LogEntry} {s : SnapMeta} {st : HardState}
    {ents : List LogEntry} (h : replayWAL lib disk = .ok (⟨s, s, ents⟩, st)) :
    startRaft lib disk =
      if st = {} ∨ s.index ≤ st.commit ∧ st.commit ≤ s.index + ents.length then
        .ok ⟨newRaftNode (UInt64.ofNat s.index), ⟨s, s, ents⟩, disk, {}⟩
      else .error .startNode := by
  have hstart := hlib.storage.startNode ⟨s, s, ents⟩ st
  simp only [startRaft, h, bind, Except.bind, hstart]
  rfl

/-- A disk that holds an image starts a node with this image, which may have stale entries too. -/
theorem startRaft_holds (hlib : lib.Lawful) (disk : Disk LogEntry) {im : Image LogEntry}
    (h : Holds disk.wal disk.files im) :
    ∃ n, startRaft lib disk = .ok n ∧ n.disk = disk ∧ n.walState = {} ∧
      n.rc = newRaftNode (UInt64.ofNat im.snapshot.index) ∧ n.raftStorage.Ordered ∧
      Holds disk.wal disk.files n.image ∧ n.image.snapshot = im.snapshot ∧
      n.image.state = im.state ∧ im.Keeps im.last n.image := by
  obtain ⟨ents, hread, -, hlead, hholds⟩ := h.readAll hlib.wal
  have hload : (loadSnapshot lib disk).getD {} = im.snapshot := by
    have hnewest := h.newest hlib.wal List.prefix_rfl [] rfl
      (by rw [List.append_nil, h.state]; exact h.snapshot_le)
    rwa [List.append_nil] at hnewest
  refine ⟨⟨newRaftNode (UInt64.ofNat im.snapshot.index), ⟨im.snapshot, im.snapshot, ents⟩, disk,
    {}⟩, ?_, rfl, rfl, rfl, ⟨Nat.le_refl _, Nat.le_add_right _ _⟩, ?_⟩
  · rw [startRaft_eq hlib (replayWAL_eq hlib hload h.snapshot_zero hread),
      if_pos (.inr ⟨hholds.snapshot_le, hholds.commit_le⟩)]
  · have himage : WalNode.image ⟨newRaftNode (UInt64.ofNat im.snapshot.index),
        ⟨im.snapshot, im.snapshot, ents⟩, disk, {}⟩ = { im with ents := ents } := by
      simp only [WalNode.image, LogStorage.after, Nat.sub_self, List.drop_zero, h.state]
    rw [himage]
    exact ⟨hholds, rfl, rfl, im.keeps_stale hlead⟩

theorem saveReady_ordinary (L : Log) (h : d.delivery.snapshot = 0) :
    saveReady lib n (d.ready L) = lib.wal.save n.walState d.hardState d.first d.entries := by
  simp [saveReady, WalDelivery.ready, Delivery.ready, h]

theorem WalDelivery.Possible.toNat_snapshot (hd : d.Possible n) :
    (UInt64.ofNat d.delivery.snapshot).toNat = d.delivery.snapshot := by
  apply UInt64.toNat_ofNat_of_lt'
  rcases hd.committed.snapshot with h | ⟨-, h⟩
  · rw [h]
    decide
  · simp only [UInt64.size]
    omega

theorem WalDelivery.Possible.ready_snapshot (hd : d.Possible n) (L : Log) :
    (d.ready L).snapshot = d.snapshot := by
  rw [WalReady.snapshot, WalDelivery.snapshot, WalDelivery.ready, Delivery.ready]
  dsimp only
  rw [hd.toNat_snapshot]

theorem WalDelivery.Possible.snapshotIndex_ne (hd : d.Possible n) (L : Log)
    (h : d.delivery.snapshot ≠ 0) : (d.ready L).ready.snapshotIndex ≠ 0 := by
  intro hzero
  have hnat := hd.toNat_snapshot
  rw [show UInt64.ofNat d.delivery.snapshot = 0 from hzero] at hnat
  exact h hnat.symm

/-- With a snapshot the new entries start right after it. -/
theorem saveReady_install (hlib : lib.Lawful) (hd : d.Possible n) (L : Log)
    (h : d.delivery.snapshot ≠ 0) :
    saveReady lib n (d.ready L) =
      lib.wal.save n.walState d.hardState (d.snapshot.index + 1) d.entries ++
        saveSnap lib d.snapshot := by
  rw [saveReady, if_neg (hd.snapshotIndex_ne L h), hd.ready_snapshot L]
  by_cases hnil : d.entries = []
  · -- without entries their first index does not matter
    simp only [WalDelivery.ready, hnil, hlib.wal.save, entryRecords]
  · obtain ⟨hlow, hgap⟩ := hd.entries hnil
    rw [Delivery.base, if_neg h] at hlow hgap
    have hfirst : d.first = d.snapshot.index + 1 := by
      dsimp only [WalDelivery.snapshot]
      omega
    simp only [WalDelivery.ready, hfirst]

namespace WalNode.Safe

/-- In an ordinary Ready the entries come after what is committed. -/
theorem ordinary_entries (hd : d.Possible n) (h : d.delivery.snapshot = 0) :
    d.entries ≠ [] → n.image.state.commit < d.first ∧ d.first ≤ n.image.last + 1 := by
  intro hne
  have hentries := hd.entries hne
  rwa [Delivery.base, Delivery.base, if_pos h, if_pos h] at hentries

theorem ordinary_state (hn : n.Safe) (hd : d.Possible n) (h : d.delivery.snapshot = 0) :
    d.hardState ≠ {} → n.image.snapshot.index ≤ d.hardState.commit ∧
      d.hardState.commit ≤ (n.image.puts (entryRecords d.first d.entries)).last := by
  intro hne
  have hrises := hd.rises
  have hpresent := hd.present
  rw [WalDelivery.saved, if_pos h] at hrises hpresent
  rw [Image.saved_state, if_neg hne] at hrises hpresent
  refine ⟨hn.holds.snapshot_le.trans hrises, ?_⟩
  rwa [Image.last, Image.saved_snapshot, Image.saved_ents,
    ← Image.puts_entryRecords_snapshot n.image d.first d.entries] at hpresent

theorem saved_state (h : d.hardState ≠ {}) : (d.saved n.image).state = d.hardState := by
  unfold WalDelivery.saved
  split_ifs
  · rw [Image.saved_state, if_neg h]
  · rfl

structure Left (n : WalNode) (d : WalDelivery) (im : Image LogEntry) : Prop where
  keeps : n.image.Keeps (d.kept n.image) im
  term_le : n.image.state.term ≤ im.state.term
  vote : n.image.state.term = im.state.term →
    n.image.state.vote = 0 ∨ n.image.state.vote = im.state.vote
  commit_le : im.state.commit ≤ (d.saved n.image).state.commit

theorem left_same (hd : d.Possible n) {im : Image LogEntry} (h : n.image.Same im) :
    Left n d im where
  keeps := h.keeps _
  term_le := h.term.ge
  vote _ := .inr h.vote.symm
  commit_le := h.commit_le.trans hd.rises

theorem left_entries (hn : n.Safe) (hd : d.Possible n) (h : d.delivery.snapshot = 0)
    {es : List LogEntry} (hes : es ≠ [] → d.entries ≠ []) :
    Left n d (n.image.puts (entryRecords d.first es)) where
  keeps := by
    refine n.image.keeps_entries fun hne => ?_
    obtain ⟨hlow, hgap⟩ := ordinary_entries hd h (hes hne)
    refine ⟨hn.holds.snapshot_le.trans_lt hlow, hgap, ?_⟩
    rw [WalDelivery.kept, if_neg (not_not.mpr h), if_neg (hes hne)]
    omega
  term_le := by rw [Image.puts_entryRecords_state]
  vote _ := by
    rw [Image.puts_entryRecords_state]
    exact .inr rfl
  commit_le := by
    rw [Image.puts_entryRecords_state]
    exact hd.rises

theorem kept_le (hd : d.Possible n) : d.kept n.image ≤ n.image.last := by
  unfold WalDelivery.kept
  split_ifs with h hnil
  · exact Nat.min_le_left _ _
  · exact Nat.le_refl _
  · have hgap := (ordinary_entries hd (not_not.mp h) hnil).2
    omega

theorem hardState_empty (hd : d.Possible n) (h : d.hardState = {}) : d.delivery.snapshot = 0 := by
  by_contra hne
  exact (hd.install hne).2.2.1 h

theorem left_saved (hn : n.Safe) (hd : d.Possible n) : Left n d (d.saved n.image) := by
  have hkeeps : n.image.Keeps (d.kept n.image) (d.saved n.image) := by
    by_cases h : d.delivery.snapshot = 0
    · rw [WalDelivery.saved, if_pos h]
      have hentries := (left_entries hn hd h id).keeps
      unfold Image.saved
      split_ifs
      · exact hentries
      · exact hentries.trans (Image.keeps_state _ _ _)
    · rw [WalDelivery.kept, if_pos h, WalDelivery.saved, if_neg h]
      have hahead := (hd.install h).1
      exact Image.keeps_install (hn.holds.snapshot_le.trans hahead.le) (Nat.min_le_right _ _)
  by_cases hempty : d.hardState = {}
  · have hstate : (d.saved n.image).state = n.image.state := by
      rw [WalDelivery.saved, if_pos (hardState_empty hd hempty), Image.saved_state, if_pos hempty]
    exact ⟨hkeeps, by rw [hstate], fun _ => by rw [hstate]; exact .inr rfl, Nat.le_refl _⟩
  · have hstate : (d.saved n.image).state = d.hardState := saved_state hempty
    refine ⟨hkeeps, ?_, fun hterm => ?_, Nat.le_refl _⟩
    · rw [hstate]
      rcases hd.election hempty with hlt | ⟨heq, -⟩
      · exact hlt.le
      · exact heq.le
    · rw [hstate] at hterm ⊢
      rcases hd.election hempty with hlt | ⟨-, hvote⟩
      · exact absurd hterm (Nat.ne_of_lt hlt)
      · exact hvote

/-- Before the messages of an ordinary Ready. -/
theorem save_leads (hlib : lib.Lawful) (hn : n.Safe) (hd : d.Possible n)
    (h : d.delivery.snapshot = 0) :
    Leads (Left n d) n.disk (lib.wal.save n.walState d.hardState d.first d.entries)
      (d.saved n.image) := by
  have hsaved := left_saved hn hd
  rw [WalDelivery.saved, if_pos h] at hsaved ⊢
  have hleads := (Leads.nil (hn.survives.mono fun _ => left_same hd) hn.holds).save hlib.wal
    n.walState (ordinary_entries hd h) (hn.ordinary_state hd h)
    (fun j => left_entries hn hd h fun hne hnil => hne (by rw [hnil, List.take_nil])) hsaved
  rwa [List.nil_append] at hleads

/-- The disk when the messages of a Ready are sent. -/
theorem saved_holds (hlib : lib.Lawful) (hn : n.Safe) (hd : d.Possible n) (L : Log) :
    Holds (n.disk.writes (saveReady lib n (d.ready L))).wal
      (n.disk.writes (saveReady lib n (d.ready L))).files (d.saved n.image) := by
  by_cases h : d.delivery.snapshot = 0
  · rw [saveReady_ordinary L h]
    exact (hn.save_leads hlib hd h).holds
  · obtain ⟨hahead, hterm, hstate, hcovers⟩ := hd.install h
    have hpresent := hd.present
    rw [saveReady_install hlib hd L h]
    rw [WalDelivery.saved, if_neg h] at hpresent ⊢
    exact hn.holds.install hlib.wal (s := d.snapshot) (hn.holds.snapshot_le.trans_lt hahead) hterm
      n.walState hstate hcovers hpresent

/-- What is not synced by then is a commit index at most. -/
theorem saved_survives (hlib : lib.Lawful) (hn : n.Safe) (hd : d.Possible n) (L : Log) :
    Survives (n.disk.writes (saveReady lib n (d.ready L))) (d.saved n.image).Same := by
  have hholds := hn.saved_holds hlib hd L
  by_cases h : d.delivery.snapshot = 0
  · have hrises := hd.rises
    rw [saveReady_ordinary L h] at hholds ⊢
    rw [WalDelivery.saved, if_pos h] at hholds hrises ⊢
    refine hn.survives.save hlib.wal hholds fun hne hterm hvote => ?_
    rw [Image.saved_state, if_neg hne] at hrises
    -- after a start the log does not know its last state, and syncs every term but zero
    rcases hn.walState with hnew | ⟨hterm', hvote'⟩
    · rw [hnew] at hterm hvote
      rcases hd.election hne with hlt | ⟨heq, hzero⟩
      · rw [hterm] at hlt
        exact absurd hlt (Nat.not_lt_zero _)
      · refine ⟨heq.symm, ?_, hrises⟩
        rcases hzero with hzero | hsame
        · rw [hvote, hzero]
        · exact hsame.symm
    · exact ⟨hterm.trans hterm', hvote.trans hvote', hrises⟩
  · rw [saveReady_install hlib hd L h] at hholds ⊢
    apply Survives.of_synced hholds
    rw [saveSnap, hlib.wal.saveSnapshot, Disk.writes_append]
    exact Nat.le_refl _

theorem walState_saved (hn : n.Safe) (hd : d.Possible n) :
    (if d.hardState = {} then n.walState else d.hardState) = {} ∨
    (if d.hardState = {} then n.walState else d.hardState).term = (d.saved n.image).state.term ∧
      (if d.hardState = {} then n.walState else d.hardState).vote =
        (d.saved n.image).state.vote := by
  by_cases hempty : d.hardState = {}
  · rw [WalDelivery.saved, if_pos (hardState_empty hd hempty), Image.saved_state, if_pos hempty,
      if_pos hempty]
    exact hn.walState
  · rw [if_neg hempty, saved_state hempty]
    exact .inr ⟨rfl, rfl⟩

/-- The storage after a Ready has what is saved. -/
theorem storage_saved (hlib : lib.Lawful) (hn : n.Safe) (hd : d.Possible n) (L : Log)
    {ms : LogStorage} (h : lib.storage.append (if (d.ready L).ready.snapshotIndex = 0
      then n.raftStorage else installLog lib n.raftStorage (d.ready L).snapshot) d.first d.entries =
        .ok ms) :
    ms.Ordered ∧ ms.snapshot = (d.saved n.image).snapshot ∧ ms.after = (d.saved n.image).ents := by
  by_cases hzero : d.delivery.snapshot = 0
  · have hindex : (d.ready L).ready.snapshotIndex = 0 := by
      simp [WalDelivery.ready, Delivery.ready, hzero]
    rw [if_pos hindex] at h
    have hentries : d.entries ≠ [] → n.raftStorage.snapshot.index < d.first ∧
        d.first ≤ n.raftStorage.lastIndex + 1 := fun hne => by
      obtain ⟨hlow, hgap⟩ := ordinary_entries hd hzero hne
      rw [hn.last_image] at hgap
      exact ⟨hn.holds.snapshot_le.trans_lt hlow, hgap⟩
    obtain ⟨ms', hms', hordered, hsnapshot, hafter⟩ := hn.ordered.append hlib _ _ hentries
    rw [hms'] at h
    cases h
    rw [WalDelivery.saved, if_pos hzero, Image.saved_snapshot, Image.saved_ents]
    refine ⟨hordered, hsnapshot, hafter.trans ?_⟩
    by_cases hnil : d.entries = []
    · rw [if_pos hnil, hnil]
      rfl
    · obtain ⟨hlow, hgap⟩ := ordinary_entries hd hzero hnil
      rw [Image.puts_entryRecords _ (hentries hnil).1 hgap, if_neg hnil, if_neg hnil]
      rfl
  · -- the received snapshot empties the storage, and the entries follow it
    have hahead := (hd.install hzero).1
    have hinstall : installLog lib n.raftStorage d.snapshot = ⟨d.snapshot, d.snapshot, []⟩ :=
      LogStorage.installLog_eq hlib (hn.holds.snapshot_le.trans_lt hahead)
    rw [if_neg (hd.snapshotIndex_ne L hzero), hd.ready_snapshot L, hinstall] at h
    have happend : lib.storage.append ⟨d.snapshot, d.snapshot, []⟩ d.first d.entries =
        .ok ⟨d.snapshot, d.snapshot, d.entries⟩ := by
      by_cases hnil : d.entries = []
      · rw [hnil, hlib.storage.append_nil]
      · obtain ⟨hlow, hgap⟩ := hd.entries hnil
        rw [Delivery.base, if_neg hzero] at hlow hgap
        rw [show d.first = d.snapshot.index + 1 from Nat.le_antisymm hgap hlow]
        exact LogStorage.append_restored hlib _ _
    rw [happend] at h
    cases h
    rw [WalDelivery.saved, if_neg hzero]
    refine ⟨⟨Nat.le_refl _, Nat.le_add_right _ _⟩, rfl, ?_⟩
    simp only [LogStorage.after, Nat.sub_self, List.drop_zero]

/-- The node takes the index of an installed snapshot for applied. -/
theorem publishSnapshot_indices (hn : n.Safe) (hd : d.Possible n) {rc : RaftNode}
    {msgs : List CommitMsg}
    (h : publishSnapshot n.rc (UInt64.ofNat d.delivery.snapshot) = .ok (rc, msgs)) :
    rc.appliedIndex.toNat = d.delivery.base n.rc.appliedIndex.toNat ∧
    rc.snapshotIndex.toNat = (d.saved n.image).snapshot.index ∧
    rc.snapshotIndex ≤ rc.appliedIndex ∧ rc.snapCount = defaultSnapshotCount := by
  by_cases hzero : d.delivery.snapshot = 0
  · rw [hzero] at h
    cases h
    rw [Delivery.base, if_pos hzero, WalDelivery.saved, if_pos hzero, Image.saved_snapshot]
    exact ⟨rfl, hn.snapshot, hn.snapshot_le, hn.snapCount⟩
  · have hne : UInt64.ofNat d.delivery.snapshot ≠ 0 := hd.snapshotIndex_ne emptyLog hzero
    rw [publishSnapshot, if_neg hne] at h
    split_ifs at h
    cases h
    rw [Delivery.base, if_neg hzero, WalDelivery.saved, if_neg hzero]
    exact ⟨hd.toNat_snapshot, hd.toNat_snapshot, UInt64.le_refl _, hn.snapCount⟩

theorem base_le_commit (hn : n.Safe) (hd : d.Possible n) :
    d.delivery.base n.rc.appliedIndex.toNat ≤ (d.saved n.image).state.commit := by
  unfold Delivery.base
  split_ifs with hzero
  · exact hn.applied_le.trans hd.rises
  · rw [WalDelivery.saved, if_neg hzero]
    exact (hd.install hzero).2.2.2

/-- What is published ends at the applied index or at the last committed entry. -/
theorem published_indices (hn : n.Safe) (hd : d.Possible n) {rc : RaftNode} {ents : List Entry}
    {p : Published} {ctxDone : Bool}
    (happlied : rc.appliedIndex.toNat = d.delivery.base n.rc.appliedIndex.toNat)
    (hents : entriesToApply rc (d.ready L).ready.committedEntries = .ok ents)
    (hp : publishEntries unmarshal rc ents ctxDone = .ok p) :
    p.rc.appliedIndex.toNat =
        max (d.delivery.base n.rc.appliedIndex.toNat) (d.delivery.lo + d.delivery.n - 1) ∧
      p.rc.snapshotIndex = rc.snapshotIndex ∧ p.rc.snapCount = rc.snapCount := by
  have hcommit := hn.base_le_commit hd
  have hbound := hd.bounded
  have hents' := entriesToApply_slice L happlied (by omega) hd.committed.contiguous
    hd.committed.bounded
  rw [show entriesToApply rc (d.ready L).ready.committedEntries = _ from hents'] at hents
  cases hents
  rw [(publishEntries_ok hp).1]
  exact ⟨published_rest L happlied hd.committed.bounded, published_snapshotIndex ..,
    published_snapCount ..⟩

/-- When the committed entries are published, the node is safe again. -/
theorem publishWal (hlib : lib.Lawful) (hn : n.Safe) (hd : d.Possible n) {waits : Bool}
    (h : Raft.publishWal lib unmarshal n (d.ready L) = .ok (t, waits)) :
    t.Safe ∧ t.image = d.saved n.image ∧
      t.disk = n.disk.writes (saveReady lib n (d.ready L)) := by
  obtain ⟨⟨rc, msgs⟩, hsnap, h⟩ := bind_eq_ok h
  obtain ⟨ms, hms, h⟩ := bind_eq_ok h
  obtain ⟨ents, hents, h⟩ := bind_eq_ok h
  obtain ⟨p, hp, h⟩ := bind_eq_ok h
  cases h
  obtain ⟨happlied, hindex, hle, hcount⟩ := hn.publishSnapshot_indices hd (mapError_eq_ok hsnap)
  obtain ⟨hordered, hsnapshot, hafter⟩ := hn.storage_saved hlib hd L (mapError_eq_ok hms)
  obtain ⟨hnext, hsame, hcount'⟩ :=
    hn.published_indices hd happlied (mapError_eq_ok hents) (mapError_eq_ok hp)
  have hholds := hn.saved_holds hlib hd L
  have hcommit := hn.base_le_commit hd
  have hstored := hd.stored
  -- disk and storage agree on the image again
  have himage : WalNode.image ⟨p.rc, ms, n.disk.writes (saveReady lib n (d.ready L)),
      if (d.ready L).hardState = {} then n.walState else (d.ready L).hardState⟩ =
      d.saved n.image := by
    rw [WalNode.image, hsnapshot, hafter, hholds.state]
  refine ⟨?_, himage, rfl⟩
  constructor
  · rw [himage]
    exact hholds
  · rw [himage]
    exact hn.saved_survives hlib hd L
  · exact (Disk.writes_synced _ _ hn.synced_le).2
  · exact hordered
  · rw [hsame, hsnapshot]
    exact hindex
  · rw [UInt64.le_iff_toNat_le, hnext, hsame]
    exact (UInt64.le_iff_toNat_le.mp hle).trans (happlied.le.trans (Nat.le_max_left _ _))
  · rw [himage, hnext]
    omega
  · rw [himage]
    exact hd.bounded
  · rw [hcount']
    exact hcount
  · rw [himage]
    exact hn.walState_saved hd

/-- The threshold is taken only when the applied index is well past the snapshot. -/
theorem due (hn : n.Safe) (hdue : n.rc.dueSnapshot = true) :
    n.image.snapshot.index + 2000 < n.rc.appliedIndex.toNat := by
  have hcount : defaultSnapshotCount.toNat = 2000 := rfl
  have hle := UInt64.le_iff_toNat_le.mp hn.snapshot_le
  have hindex : n.image.snapshot.index = n.rc.snapshotIndex.toNat := hn.snapshot.symm
  simp only [RaftNode.dueSnapshot, hn.snapCount, Bool.not_eq_true', decide_eq_false_iff_not,
    UInt64.le_iff_toNat_le, not_le, UInt64.toNat_sub_of_le _ _ hn.snapshot_le] at hdue
  omega

theorem toNat_compactIndex {a : UInt64} (h : 2000 < a.toNat) :
    (compactIndex a).toNat = a.toNat - 2000 := by
  have hcatchUp : snapshotCatchUpEntriesN.toNat = 2000 := rfl
  have hlt : snapshotCatchUpEntriesN < a := by
    rw [UInt64.lt_iff_toNat_lt]
    omega
  rw [compactIndex, if_pos hlt, UInt64.toNat_sub_of_le _ _ (UInt64.le_of_lt hlt), hcatchUp]

/-- What a crash may leave of an image when the messages are sent. -/
structure Sent (im im' : Image LogEntry) : Prop where
  keeps : im.Keeps im.last im'
  term : im'.state.term = im.state.term
  vote : im'.state.vote = im.state.vote
  commit_le : im'.state.commit ≤ im.state.commit

theorem sent_same {im im' : Image LogEntry} (h : im.Same im') : Sent im im' :=
  ⟨h.keeps _, h.term, h.vote, h.commit_le⟩

/-- The snapshot that `maybeTriggerSnapshot` takes. -/
def taken (n : WalNode) : SnapMeta :=
  ⟨n.rc.appliedIndex.toNat, n.raftStorage.termAt n.rc.appliedIndex.toNat⟩

/-- Its term is that of a committed entry. -/
theorem taken_term (hn : n.Safe) (hdue : n.rc.dueSnapshot = true)
    (hterms : ∀ i ≤ n.image.state.commit, ∀ e ∈ n.image.stored? i, n.image.snapshot.term ≤ e.term) :
    n.image.snapshot.term ≤ (taken n).term := by
  have hfar := hn.due hdue
  have hdummy := hn.ordered.dummy_le
  have hlast := hn.applied_le.trans hn.holds.commit_le
  rw [hn.last_image, LogStorage.lastIndex] at hlast
  have hsnapshot : n.image.snapshot.index = n.raftStorage.snapshot.index := rfl
  have hentry : n.image.stored? n.rc.appliedIndex.toNat =
      n.raftStorage.ents[n.rc.appliedIndex.toNat - n.raftStorage.dummy.index - 1]? := by
    rw [Image.stored?_of_lt _ (by omega)]
    simp only [image, LogStorage.after]
    rw [List.getElem?_drop]
    congr 1
    omega
  obtain ⟨e, he⟩ : ∃ e,
      n.raftStorage.ents[n.rc.appliedIndex.toNat - n.raftStorage.dummy.index - 1]? = some e :=
    ⟨_, List.getElem?_eq_getElem (by omega)⟩
  have hterm := hterms _ hn.applied_le e (by rw [hentry, he]; rfl)
  simp only [taken, LogStorage.termAt]
  rw [if_neg (by omega), he]
  exact hterm

/-- The image after `maybeTriggerSnapshot`. -/
def triggered (lib : Library) (n : WalNode) (waits ctxDone : Bool) : Image LogEntry :=
  if triggers n.rc waits ctxDone then
    match lib.storage.createSnapshot n.raftStorage n.rc.appliedIndex.toNat with
    | .ok _ => n.image.put (.snapshot (taken n))
    | .error _ => n.image
  else n.image

theorem trigger_leads (hlib : lib.Lawful) (hn : n.Safe) (waits ctxDone : Bool)
    (hterms : ∀ i ≤ n.image.state.commit, ∀ e ∈ n.image.stored? i, n.image.snapshot.term ≤ e.term) :
    Leads (Sent n.image) n.disk (triggerWrites lib n waits ctxDone)
      (triggered lib n waits ctxDone) := by
  have hnil : Leads (Sent n.image) n.disk [] n.image :=
    Leads.nil (hn.survives.mono fun _ => sent_same) hn.holds
  unfold triggerWrites triggered
  split_ifs with htrigger
  · cases hcreate : lib.storage.createSnapshot n.raftStorage n.rc.appliedIndex.toNat with
    | error f => exact hnil
    | ok ms =>
      obtain ⟨rfl, -⟩ := hlib.storage.createSnapshot _ _ _ hcreate
      have hdue : n.rc.dueSnapshot = true := (Bool.and_eq_true_iff.mp htrigger).1
      have hfar := hn.due hdue
      have hlt : n.image.snapshot.index < (taken n).index := by
        dsimp only [taken]
        omega
      exact hnil.saveSnapshot hlib.wal hlt (hn.taken_term hdue hterms) hn.applied_le
        ⟨n.image.keeps_snapshot _ hlt.le, rfl, rfl, Nat.le_refl _⟩
  · exact hnil

/-- A node whose disk and storage have moved to a snapshot at its applied index. -/
theorem of_taken (hlib : lib.Lawful) (hn : n.Safe) {ms : LogStorage}
    (hholds : Holds (n.disk.writes (saveSnap lib (taken n))).wal
      (n.disk.writes (saveSnap lib (taken n))).files (n.image.put (.snapshot (taken n))))
    (hordered : ms.Ordered) (hsnapshot : ms.snapshot = taken n)
    (hafter : ms.after = n.raftStorage.after.drop
      (n.rc.appliedIndex.toNat - n.raftStorage.snapshot.index)) :
    Safe ⟨{ n.rc with snapshotIndex := n.rc.appliedIndex }, ms,
      n.disk.writes (saveSnap lib (taken n)), n.walState⟩ := by
  have himage : WalNode.image ⟨{ n.rc with snapshotIndex := n.rc.appliedIndex }, ms,
      n.disk.writes (saveSnap lib (taken n)), n.walState⟩ =
        n.image.put (.snapshot (taken n)) := by
    rw [WalNode.image, hsnapshot, hafter, hholds.state]
    rfl
  constructor
  · rw [himage]
    exact hholds
  · rw [himage]
    apply Survives.of_synced hholds
    rw [saveSnap, hlib.wal.saveSnapshot]
    exact Nat.le_refl _
  · exact (Disk.writes_synced _ _ hn.synced_le).2
  · exact hordered
  · rw [hsnapshot]
    rfl
  · exact UInt64.le_refl _
  · rw [himage]
    exact hn.applied_le
  · rw [himage]
    exact hn.bound
  · exact hn.snapCount
  · rw [himage]
    exact hn.walState

/-- `maybeTriggerSnapshot` leaves the node safe. -/
theorem triggerWal (hlib : lib.Lawful) (hn : n.Safe) {waits ctxDone : Bool}
    (hterms : ∀ i ≤ n.image.state.commit, ∀ e ∈ n.image.stored? i, n.image.snapshot.term ≤ e.term)
    (h : Raft.triggerWal lib n waits ctxDone = .ok t) : t.Safe := by
  have hleads := (hn.trigger_leads hlib waits ctxDone hterms).holds
  unfold Raft.triggerWal at h
  unfold triggerWrites triggered at hleads
  split_ifs at h hleads with htrigger
  · obtain ⟨ms, hms, h⟩ := bind_eq_ok h
    obtain ⟨ms', hms', h⟩ := bind_eq_ok h
    cases h
    have hcreate := mapError_eq_ok hms
    rw [hcreate] at hleads
    have hfar := hn.due (Bool.and_eq_true_iff.mp htrigger).1
    have hcompact := toNat_compactIndex (Nat.lt_of_le_of_lt (Nat.le_add_left _ _) hfar)
    have hlast := hn.applied_le.trans hn.holds.commit_le
    rw [hn.last_image] at hlast
    obtain ⟨rfl, hsnapshot⟩ := hlib.storage.createSnapshot _ _ _ hcreate
    obtain ⟨rfl, hlow⟩ := hlib.storage.compact _ _ _ (mapError_eq_ok hms')
    obtain ⟨hordered, hafter⟩ := hn.ordered.compacted (taken n) hsnapshot.le hlast
      ⟨_, n.raftStorage.termAt (compactIndex n.rc.appliedIndex).toNat⟩ hlow.le
      (hcompact.le.trans (Nat.sub_le _ _))
    apply hn.of_taken hlib hleads
    · exact hordered
    · rfl
    · exact hafter
  · cases h
    exact hn

end WalNode.Safe

end Ecos.Raft
