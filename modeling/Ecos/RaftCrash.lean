import Ecos.RaftWal

namespace Ecos.Raft
open Go Logic Etcd

/-- After a crash the log has some records of a Ready with a snapshot, but not its marker. -/
def InWindow (n : WalNode) (d : WalDelivery) (k : ℕ) : Prop :=
  d.delivery.snapshot ≠ 0 ∧ n.disk.wal.length < k ∧
    k ≤ n.disk.wal.length + d.entries.length + 1

section
variable (lib : Library) (unmarshal : Bytes → Option ConfChange) (L : Log)

def cutDisk (n : WalNode) (d : WalDelivery) (j : ℕ) : Disk LogEntry :=
  n.disk.writes ((readyWrites lib unmarshal n (d.ready L)).take j)

inductive WalAct where
  | serve (d : WalDelivery)
  /-- `j` writes of the Ready are done, and the node starts from what is left of the disk -/
  | crash (d : WalDelivery) (j : ℕ) (disk : Disk LogEntry)
  deriving DecidableEq, Repr

def walStep (n : WalNode) : WalAct → Option WalNode
  | .serve d => (serveWal lib unmarshal n (d.ready L)).toOption
  | .crash _ _ disk => (startRaft lib disk).toOption

/-- Crashes in the window are left out. -/
def WalAct.Allowed (n : WalNode) : WalAct → Prop
  | .serve d => d.Possible n
  | .crash d j disk => d.Possible n ∧ (cutDisk lib unmarshal L n d j).CrashesTo disk ∧
      ¬InWindow n d disk.wal.length

def started : WalNode := ⟨newRaftNode 0, lib.storage.newMemoryStorage, lib.wal.create, {}⟩

end

variable {lib : Library} {unmarshal : Bytes → Option ConfChange} {L : Log} {n t : WalNode}
  {d : WalDelivery} {j k : ℕ} {disk : Disk LogEntry}

/-- The writes of `saveSnap` leave the log as it is until the marker is there. -/
theorem cut_saveSnap (hlib : lib.Lawful) (disk : Disk LogEntry) (ws : List (Write LogEntry))
    (s : SnapMeta) (j : ℕ) :
    (disk.writes ((ws ++ saveSnap lib s).take j)).wal <+: (disk.writes ws).wal ∨
    (disk.writes ((ws ++ saveSnap lib s).take j)).wal = (disk.writes (ws ++ saveSnap lib s)).wal ∧
      (disk.writes ((ws ++ saveSnap lib s).take j)).files =
        (disk.writes (ws ++ saveSnap lib s)).files := by
  rw [saveSnap, hlib.wal.saveSnapshot]
  rcases Nat.lt_or_ge j ws.length with hlt | hge
  · left
    rw [List.take_append_of_le_length hlt.le]
    exact Disk.writes_take _ _ _
  · rw [List.take_append, List.take_of_length_le hge, Disk.writes_append, Disk.writes_append]
    -- none of the three writes, the file, the marker, or all of them
    rcases j - ws.length with _ | _ | _ | m
    · exact .inl List.prefix_rfl
    · exact .inl List.prefix_rfl
    · exact .inr ⟨rfl, rfl⟩
    · rw [List.take_of_length_le (Nat.le_add_left 3 m)]
      exact .inr ⟨rfl, rfl⟩

theorem saveSnap_wal (hlib : lib.Lawful) (disk : Disk LogEntry) (s : SnapMeta) :
    (disk.writes (saveSnap lib s)).wal = disk.wal ++ [.snapshot s] := by
  rw [saveSnap, hlib.wal.saveSnapshot]
  rfl

/-- The log of a Ready with a snapshot before its marker. -/
theorem save_install_wal (hlib : lib.Lawful) (hd : d.Possible n) (h : d.delivery.snapshot ≠ 0) :
    (n.disk.writes (lib.wal.save n.walState d.hardState (d.snapshot.index + 1) d.entries)).wal =
      n.disk.wal ++ (entryRecords (d.snapshot.index + 1) d.entries ++ [.state d.hardState]) :=
  (save_writes hlib.wal n.disk n.walState (hd.install h).2.2.1 (d.snapshot.index + 1) d.entries).1

namespace WalNode.Safe

/-- A crash before the messages of a Ready are sent. -/
theorem early_cut (hlib : lib.Lawful) (hn : n.Safe) (hd : d.Possible n)
    (hcrash : (n.disk.writes ((saveReady lib n (d.ready L)).take j)).CrashesTo disk)
    (hwindow : ¬InWindow n d disk.wal.length) :
    ∃ im, Holds disk.wal disk.files im ∧ Left n d im := by
  by_cases h : d.delivery.snapshot = 0
  · rw [saveReady_ordinary L h] at hcrash
    exact ((hn.save_leads hlib hd h).cuts j).crash hcrash
  by_cases hold : disk.wal.length ≤ n.disk.wal.length
  · -- nothing of the Ready is left
    have hsynced :=
      (Disk.writes_synced n.disk ((saveReady lib n (d.ready L)).take j) hn.synced_le).1
    obtain ⟨im, hholds, hsame⟩ := hn.survives _ (hsynced.trans hcrash.synced_le) hold
    refine ⟨im, ?_, left_same hd hsame⟩
    rw [take_eq_of_isPrefix (Disk.writes_wal n.disk _) hold, hcrash.wal_eq] at hholds
    rw [hcrash.files]
    exact hholds.more_files (Disk.writes_files _ _)
  · -- the marker is there too
    have hlong : n.disk.wal.length + d.entries.length + 1 < disk.wal.length := by
      by_contra hle
      exact hwindow ⟨h, Nat.not_le.mp hold, Nat.not_lt.mp hle⟩
    have hall := hn.saved_holds hlib hd L
    have hlen := hcrash.wal.length_le
    have hwal := congrArg List.length (save_install_wal hlib hd h)
    simp only [List.length_append, length_entryRecords, List.length_singleton] at hwal
    have hleft := hcrash.wal_eq
    rw [saveReady_install hlib hd L h] at hlen hall hcrash hleft
    -- a crash before the marker leaves a log that is too short
    rcases cut_saveSnap hlib n.disk
      (lib.wal.save n.walState d.hardState (d.snapshot.index + 1) d.entries) d.snapshot j
      with hshort | ⟨hwal', hfiles⟩
    · have hle := hshort.length_le
      omega
    · have hfull := congrArg List.length (saveSnap_wal hlib (n.disk.writes
        (lib.wal.save n.walState d.hardState (d.snapshot.index + 1) d.entries)) d.snapshot)
      rw [← Disk.writes_append, List.length_append, List.length_singleton] at hfull
      rw [hwal', List.take_of_length_le (by omega)] at hleft
      rw [hleft, ← hfiles, ← hcrash.files] at hall
      exact ⟨_, hall, left_saved hn hd⟩

theorem kept_le_last (hn : n.Safe) (hd : d.Possible n) :
    d.kept n.image ≤ (d.saved n.image).last :=
  (left_saved hn hd).keeps.le_last (kept_le hd)

/-- What survives after the messages are sent is a later state of what was saved before. -/
theorem Sent.left (hn : n.Safe) (hd : d.Possible n) {im : Image LogEntry}
    (h : Sent (d.saved n.image) im) : Left n d im := by
  have hsaved := left_saved hn hd
  refine ⟨hsaved.keeps.trans (h.keeps.mono (hn.kept_le_last hd)), hsaved.term_le.trans h.term.ge,
    ?_, h.commit_le⟩
  rw [h.term, h.vote]
  exact hsaved.vote

/-- Before the messages are sent only `saveReady` has written. -/
theorem cutDisk_early (h : (∃ e, Raft.publishWal lib unmarshal n (d.ready L) = .error e) ∨
    j ≤ (saveReady lib n (d.ready L)).length) :
    cutDisk lib unmarshal L n d j = n.disk.writes ((saveReady lib n (d.ready L)).take j) := by
  rw [cutDisk, readyWrites]
  rcases h with ⟨e, he⟩ | hle
  · rw [he, List.append_nil]
  · rw [List.take_append_of_le_length hle]

/-- A crash after the messages are sent. -/
theorem late_cut (hlib : lib.Lawful) (hn : n.Safe) (hd : d.Possible n)
    (hj : (saveReady lib n (d.ready L)).length ≤ j)
    (hcrash : (cutDisk lib unmarshal L n d j).CrashesTo disk) :
    ∃ im, Holds disk.wal disk.files im ∧ Sent (d.saved n.image) im := by
  cases h : Raft.publishWal lib unmarshal n (d.ready L) with
  | error e =>
    rw [cutDisk_early (.inl ⟨e, h⟩), List.take_of_length_le hj] at hcrash
    exact ((hn.saved_survives hlib hd L).mono fun _ => sent_same).crash hcrash
  | ok p =>
    obtain ⟨t, waits⟩ := p
    obtain ⟨ht, himage, hdisk⟩ := hn.publishWal hlib hd h
    have hterms := hd.terms
    rw [← himage] at hterms ⊢
    have hcut : cutDisk lib unmarshal L n d j =
        t.disk.writes ((triggerWrites lib t waits (d.ready L).ready.waitDone).take
          (j - (saveReady lib n (d.ready L)).length)) := by
      rw [cutDisk, readyWrites, h, List.take_append, List.take_of_length_le hj,
        Disk.writes_append, hdisk]
    rw [hcut] at hcrash
    exact ((ht.trigger_leads hlib waits _ hterms).cuts _).crash hcrash

/-- A crash at any point outside the window. -/
theorem cut (hlib : lib.Lawful) (hn : n.Safe) (hd : d.Possible n)
    (hcrash : (cutDisk lib unmarshal L n d j).CrashesTo disk)
    (hwindow : ¬InWindow n d disk.wal.length) :
    ∃ im, Holds disk.wal disk.files im ∧ Left n d im := by
  rcases Nat.le_total j (saveReady lib n (d.ready L)).length with hle | hge
  · rw [cutDisk_early (.inr hle)] at hcrash
    exact hn.early_cut hlib hd hcrash hwindow
  · obtain ⟨im, hholds, hsent⟩ := hn.late_cut hlib hd hge hcrash
    exact ⟨im, hholds, hsent.left hn hd⟩

/-- The node that starts from what a crash has left. -/
theorem restarted (hlib : lib.Lawful) {im : Image LogEntry}
    (hsynced : disk.synced = disk.wal.length) (hholds : Holds disk.wal disk.files im)
    (hbound : im.state.commit + 1 < 2 ^ 64) :
    ∃ n, startRaft lib disk = .ok n ∧ n.Safe ∧ n.image.state = im.state ∧
      im.Keeps im.last n.image := by
  obtain ⟨n, hstart, hdisk, hwalState, hrc, hordered, hn, hsnapshot, hstate, hkeeps⟩ :=
    startRaft_holds hlib disk hholds
  have hlow := hholds.snapshot_le
  have hindex : (UInt64.ofNat im.snapshot.index).toNat = im.snapshot.index :=
    UInt64.toNat_ofNat_of_lt' (by simp only [UInt64.size]; omega)
  have hlen : n.disk.wal.length = n.disk.synced := by
    rw [hdisk]
    exact hsynced.symm
  refine ⟨n, hstart, ?_, hstate, hkeeps⟩
  rw [← hdisk] at hn
  refine ⟨hn, .of_synced hn hlen.le, hlen.ge, hordered, ?_, ?_, ?_, ?_, ?_, .inl hwalState⟩
  · rw [hrc]
    exact hindex.trans (congrArg SnapMeta.index hsnapshot).symm
  · rw [hrc]
    exact UInt64.le_refl _
  · rw [hrc, hstate]
    exact hindex.le.trans hlow
  · rw [hstate]
    exact hbound
  · rw [hrc]
    rfl

/-- Stale entries come after everything that was kept. -/
theorem Left.restarted (hd : d.Possible n) {im im' : Image LogEntry} (h : Left n d im)
    (hstate : im'.state = im.state) (hkeeps : im.Keeps im.last im') : Left n d im' := by
  refine ⟨h.keeps.trans (hkeeps.mono (h.keeps.le_last (kept_le hd))), ?_, ?_, ?_⟩
  · rw [hstate]
    exact h.term_le
  · rw [hstate]
    exact h.vote
  · rw [hstate]
    exact h.commit_le

theorem Sent.restarted {im₀ im im' : Image LogEntry} (h : Sent im₀ im)
    (hstate : im'.state = im.state) (hkeeps : im.Keeps im.last im') : Sent im₀ im' := by
  refine ⟨h.keeps.trans (hkeeps.mono (h.keeps.le_last (Nat.le_refl _))), ?_, ?_, ?_⟩
  · rw [hstate]
    exact h.term
  · rw [hstate]
    exact h.vote
  · rw [hstate]
    exact h.commit_le

theorem restart (hlib : lib.Lawful) (hn : n.Safe) (hd : d.Possible n)
    (hcrash : (cutDisk lib unmarshal L n d j).CrashesTo disk)
    (hwindow : ¬InWindow n d disk.wal.length) :
    ∃ n', startRaft lib disk = .ok n' ∧ n'.Safe ∧ Left n d n'.image := by
  obtain ⟨im, hholds, hleft⟩ := hn.cut hlib hd hcrash hwindow
  obtain ⟨n', hstart, hn', hstate, hkeeps⟩ := restarted hlib hcrash.synced hholds
    ((Nat.succ_le_succ hleft.commit_le).trans_lt hd.bounded)
  exact ⟨n', hstart, hn', hleft.restarted hd hstate hkeeps⟩

theorem restart_sent (hlib : lib.Lawful) (hn : n.Safe) (hd : d.Possible n)
    (hj : (saveReady lib n (d.ready L)).length ≤ j)
    (hcrash : (cutDisk lib unmarshal L n d j).CrashesTo disk) :
    ∃ n', startRaft lib disk = .ok n' ∧ Sent (d.saved n.image) n'.image := by
  obtain ⟨im, hholds, hsent⟩ := hn.late_cut hlib hd hj hcrash
  obtain ⟨n', hstart, -, hstate, hkeeps⟩ := restarted hlib hcrash.synced hholds
    ((Nat.succ_le_succ hsent.commit_le).trans_lt hd.bounded)
  exact ⟨n', hstart, hsent.restarted hstate hkeeps⟩

theorem serveWal (hlib : lib.Lawful) (hn : n.Safe) (hd : d.Possible n)
    (h : Raft.serveWal lib unmarshal n (d.ready L) = .ok t) : t.Safe := by
  obtain ⟨⟨m, waits⟩, hm, h⟩ := bind_eq_ok h
  obtain ⟨hsafe, himage, -⟩ := hn.publishWal hlib hd hm
  have hterms := hd.terms
  rw [← himage] at hterms
  exact hsafe.triggerWal hlib hterms h

end WalNode.Safe

theorem started_eq (hlib : lib.Lawful) :
    started lib = ⟨newRaftNode 0, {}, ⟨[.snapshot {}], 1, []⟩, {}⟩ := by
  rw [started, hlib.storage.newMemoryStorage, hlib.wal.create]

/-- The first start opens the new log like any other. -/
theorem startRaft_create (hlib : lib.Lawful) :
    startRaft lib lib.wal.create = .ok (started lib) := by
  rw [started_eq hlib, hlib.wal.create]
  have hload : (loadSnapshot lib ⟨[.snapshot {}], 1, []⟩).getD {} = {} :=
    Holds.create.newest hlib.wal List.prefix_rfl [] rfl (Nat.le_refl _)
  have hread : lib.wal.readAll {} [.snapshot {}] = .ok ({}, []) :=
    hlib.wal.readAll {} _ [] rfl (List.mem_singleton_self _)
      (fun s hs _ => List.mem_singleton.mp hs)
  exact (startRaft_eq hlib (replayWAL_eq hlib hload (.inl rfl) hread)).trans (if_pos (.inl rfl))

theorem safe_started (hlib : lib.Lawful) : (started lib).Safe := by
  rw [started_eq hlib]
  exact
    { holds := Holds.create
      survives := .of_synced Holds.create (Nat.le_refl _)
      synced_le := Nat.le_refl _
      ordered := ⟨Nat.le_refl _, Nat.le_refl _⟩
      snapshot := rfl
      snapshot_le := UInt64.le_refl _
      applied_le := Nat.le_refl _
      bound := by decide
      snapCount := rfl
      walState := .inl rfl }

theorem safe_walRun (hlib : lib.Lawful) {acts : List WalAct}
    (hacts : Meets (walStep lib unmarshal L) (WalAct.Allowed lib unmarshal L) (started lib) acts)
    (hrun : run (walStep lib unmarshal L) (started lib) acts = some n) : n.Safe := by
  refine run_invariant (fun n a n' hn ha h => ?_) (safe_started hlib) hacts hrun
  cases a with
  | serve d => exact hn.serveWal hlib ha (toOption_eq_some h)
  | crash d j disk =>
    obtain ⟨hd, hcrash, hwindow⟩ := ha
    obtain ⟨m, hm, hsafe, -⟩ := hn.restart hlib hd hcrash hwindow
    have hstart := toOption_eq_some h
    rw [hm] at hstart
    cases hstart
    exact hsafe

def firstEntries : WalDelivery where
  delivery := ⟨0, 0, 0, false, false⟩
  hardState := ⟨1, 0, 0⟩
  first := 1
  entries := [⟨1, .normal, []⟩, ⟨1, .normal, []⟩]

def follower : WalNode where
  rc := newRaftNode 0
  raftStorage := ⟨{}, {}, [⟨1, .normal, []⟩, ⟨1, .normal, []⟩]⟩
  disk := ⟨[.snapshot {}, .entry 1 ⟨1, .normal, []⟩, .entry 2 ⟨1, .normal, []⟩, .state ⟨1, 0, 0⟩],
    4, []⟩
  walState := ⟨1, 0, 0⟩

def snapshotAt (i : ℕ) : WalDelivery where
  delivery := ⟨i, 0, 0, false, false⟩
  snapshotTerm := 2
  hardState := ⟨2, 0, i⟩

theorem firstEntries_possible : firstEntries.Possible (started reference) where
  committed := ⟨.inl rfl, by decide, by decide⟩
  entries _ := by decide
  install h := absurd rfl h
  rises := by decide
  present := by decide
  election _ := by decide
  stored := by decide
  terms := by decide
  bounded := by decide

theorem follower_run : run (walStep reference (fun _ => none) emptyLog) (started reference)
    [.serve firstEntries] = some follower := by decide

theorem follower_meets : Meets (walStep reference (fun _ => none) emptyLog)
    (WalAct.Allowed reference (fun _ => none) emptyLog) (started reference)
    [.serve firstEntries] := ⟨firstEntries_possible, fun _ _ => trivial⟩

theorem snapshotAt_possible {i : ℕ} (hi : 0 < i) (hb : i + 1 < 2 ^ 64) :
    (snapshotAt i).Possible follower := by
  have hsaved : (snapshotAt i).saved follower.image = ⟨⟨i, 2⟩, [], ⟨2, 0, i⟩⟩ :=
    if_neg (Nat.ne_of_gt hi)
  constructor
  · exact ⟨.inr ⟨hi, hb⟩, Nat.zero_le _, Nat.two_pow_pos 64⟩
  · exact fun h => absurd rfl h
  · exact fun _ => ⟨hi, Nat.zero_le _, by simp [snapshotAt], Nat.le_refl i⟩
  · rw [hsaved]
    exact Nat.zero_le _
  · rw [hsaved]
    exact Nat.le_refl i
  · exact fun _ => .inl (Nat.lt_succ_self 1)
  · exact Nat.zero_le _
  · rw [hsaved]
    intro j hj e he
    simp [Image.stored?] at he
  · rw [hsaved]
    exact hb

/-- A node that crashes outside the window starts again. It has every entry that the Ready does not
replace, or a snapshot instead, and it has neither gone back to an earlier term nor changed its vote
in this one. If the messages of the Ready were sent, then it has all that the Ready saved. -/
theorem crash_recovers (hlib : lib.Lawful) (acts : List WalAct)
    (hacts : Meets (walStep lib unmarshal L) (WalAct.Allowed lib unmarshal L) (started lib) acts)
    (hrun : run (walStep lib unmarshal L) (started lib) acts = some n) (hd : d.Possible n)
    (hcrash : (cutDisk lib unmarshal L n d j).CrashesTo disk)
    (hwindow : ¬InWindow n d disk.wal.length) :
    ∃ n', startRaft lib disk = .ok n' ∧ WalNode.Safe.Left n d n'.image ∧
      ((saveReady lib n (d.ready L)).length ≤ j →
        WalNode.Safe.Sent (d.saved n.image) n'.image) := by
  have hn := safe_walRun hlib hacts hrun
  obtain ⟨n', hstart, -, hleft⟩ := hn.restart hlib hd hcrash hwindow
  refine ⟨n', hstart, hleft, fun hj => ?_⟩
  obtain ⟨n'', hstart', hsent⟩ := hn.restart_sent hlib hd hj hcrash
  rw [hstart] at hstart'
  cases hstart'
  exact hsent

theorem crash_recovers_follower :
    ∃ n', startRaft reference
        ⟨follower.disk.wal ++ [.state ⟨2, 0, 2⟩, .snapshot ⟨2, 2⟩], 6, [⟨2, 2⟩]⟩ = .ok n' ∧
      WalNode.Safe.Left follower (snapshotAt 2) n'.image ∧
      ((saveReady reference follower ((snapshotAt 2).ready emptyLog)).length ≤ 5 →
        WalNode.Safe.Sent ((snapshotAt 2).saved follower.image) n'.image) :=
  crash_recovers lawful_reference [.serve firstEntries] follower_meets follower_run
    (snapshotAt_possible (by decide) (by decide)) ⟨by decide, by decide, rfl, by decide⟩
    (fun h => absurd h.2.2 (by decide))

def WalNode.readable (lib : Library) (n : WalNode) : ℕ :=
  match lib.wal.readAll n.image.snapshot n.disk.wal with
  | .ok (_, ents) => n.image.snapshot.index + ents.length
  | .error _ => 0

theorem WalNode.Safe.readable (hlib : lib.Lawful) (hn : n.Safe) :
    ∃ ents, entsAfter n.image.snapshot.index n.disk.wal = some ents ∧ n.image.ents <+: ents ∧
      n.readable lib = n.image.snapshot.index + ents.length := by
  obtain ⟨ents, hread, hents, hlead, -⟩ := hn.holds.readAll hlib.wal
  refine ⟨ents, hents, hlead, ?_⟩
  rw [WalNode.readable, hread]

def windowRecords (n : WalNode) (d : WalDelivery) (k : ℕ) : List (Record LogEntry) :=
  (entryRecords (d.snapshot.index + 1) d.entries ++ [Record.state d.hardState]).take
    (k - n.disk.wal.length)

theorem window_wal (hlib : lib.Lawful) (hd : d.Possible n)
    (hcrash : (cutDisk lib unmarshal L n d j).CrashesTo disk)
    (hwindow : InWindow n d disk.wal.length) :
    disk.wal = n.disk.wal ++ windowRecords n d disk.wal.length := by
  obtain ⟨h, hlow, hhigh⟩ := hwindow
  have hwal := save_install_wal hlib hd h
  have hcut : (cutDisk lib unmarshal L n d j).wal <+:
      (n.disk.writes (readyWrites lib unmarshal n (d.ready L))).wal := Disk.writes_take _ _ _
  have hsave : n.disk.wal ++ (entryRecords (d.snapshot.index + 1) d.entries ++
      [.state d.hardState]) <+: (n.disk.writes (readyWrites lib unmarshal n (d.ready L))).wal := by
    rw [readyWrites, saveReady_install hlib hd L h, List.append_assoc, Disk.writes_append, ← hwal]
    exact Disk.writes_wal _ _
  calc disk.wal
      = (cutDisk lib unmarshal L n d j).wal.take disk.wal.length := hcrash.wal_eq.symm
    _ = (n.disk.wal ++ (entryRecords (d.snapshot.index + 1) d.entries ++
          [Record.state d.hardState])).take disk.wal.length := by
        rw [take_eq_of_isPrefix hcut hcrash.wal.length_le,
          ← take_eq_of_isPrefix hsave (by simp; omega)]
    _ = n.disk.wal ++ windowRecords n d disk.wal.length := by
        rw [List.take_append, List.take_of_length_le hlow.le]
        rfl

theorem windowRecords_eq (hwindow : InWindow n d k) :
    windowRecords n d k =
      entryRecords (d.snapshot.index + 1) (d.entries.take (k - n.disk.wal.length)) ++
        if k = n.disk.wal.length + d.entries.length + 1 then [.state d.hardState] else [] := by
  obtain ⟨-, hlow, hhigh⟩ := hwindow
  rw [windowRecords, List.take_append, take_entryRecords, length_entryRecords]
  split_ifs with hk
  · rw [show k - n.disk.wal.length - d.entries.length = 1 by omega, List.take_succ_cons,
      List.take_zero]
  · rw [show k - n.disk.wal.length - d.entries.length = 0 by omega, List.take_zero]

/-- Without entries the window is the one record of the hard state. -/
theorem windowRecords_nil (hwindow : InWindow n d k) (hes : d.entries = []) :
    k = n.disk.wal.length + d.entries.length + 1 ∧ windowRecords n d k = [.state d.hardState] := by
  have hlow := hwindow.2.1
  have hhigh := hwindow.2.2
  have hall : k = n.disk.wal.length + d.entries.length + 1 := by
    rw [hes, List.length_nil] at hhigh ⊢
    omega
  refine ⟨hall, ?_⟩
  rw [windowRecords_eq hwindow, if_pos hall, hes, List.take_nil]
  rfl

theorem snapshots_windowRecords (hwindow : InWindow n d k) :
    snapshots (windowRecords n d k) = [] := by
  rw [windowRecords_eq hwindow, snapshots_append, snapshots_entryRecords]
  split_ifs <;> rfl

theorem lastState_window (hwindow : InWindow n d k) :
    lastState (n.disk.wal ++ windowRecords n d k) =
      if k = n.disk.wal.length + d.entries.length + 1 then d.hardState
      else lastState n.disk.wal := by
  rw [windowRecords_eq hwindow, ← List.append_assoc]
  split_ifs
  · rw [lastState_concat]
  · rw [List.append_nil, lastState_entryRecords]

namespace WalNode.Safe

/-- In the window a start takes the snapshot before the one that is installed. -/
theorem window_load (hlib : lib.Lawful) (hn : n.Safe) (hd : d.Possible n)
    (hcrash : (cutDisk lib unmarshal L n d j).CrashesTo disk)
    (hwindow : InWindow n d disk.wal.length) :
    (loadSnapshot lib disk).getD {} = n.image.snapshot := by
  obtain ⟨hahead, -, -, hcovers⟩ := hd.install hwindow.1
  have hnewest := hn.holds.newest hlib.wal (Disk.writes_files n.disk
    ((readyWrites lib unmarshal n (d.ready L)).take j)) _ (snapshots_windowRecords hwindow) (by
      rw [lastState_window hwindow]
      split_ifs
      · exact (hn.holds.snapshot_le.trans hahead.le).trans hcovers
      · exact hn.holds.snapshot_le)
  rw [← window_wal hlib hd hcrash hwindow] at hnewest
  rw [loadSnapshot, hcrash.files]
  exact hnewest

/-- In the window the log has entries after a gap, or a commit index that it has no entry for. -/
theorem window_fails (hlib : lib.Lawful) (hn : n.Safe) (hd : d.Possible n)
    (hcrash : (cutDisk lib unmarshal L n d j).CrashesTo disk)
    (hwindow : InWindow n d disk.wal.length) (hbehind : n.readable lib < d.delivery.snapshot) :
    ∃ e, startRaft lib disk = .error e := by
  have hload := hn.window_load hlib hd hcrash hwindow
  have hwal := window_wal hlib hd hcrash hwindow
  obtain ⟨ents, hents, -, hlast⟩ := hn.readable hlib
  rw [hlast] at hbehind
  cases hes : d.entries with
  | cons e es =>
    -- the first entry is after the snapshot
    have hgap : entsAfter n.image.snapshot.index disk.wal = none := by
      have hlow := hwindow.2.1
      rw [hwal, windowRecords_eq hwindow, hes, show disk.wal.length - n.disk.wal.length =
        disk.wal.length - n.disk.wal.length - 1 + 1 by omega, List.take_succ_cons, entryRecords,
        List.cons_append]
      apply entsAfter_gap hents
      dsimp only [WalDelivery.snapshot]
      omega
    obtain ⟨err, herr⟩ := hlib.wal.readAll_gap _ _ hgap
    refine ⟨.wal err, ?_⟩
    simp only [startRaft, replayWAL, hload, herr, Except.mapError, bind, Except.bind]
  | nil =>
    obtain ⟨hall, hrecords⟩ := windowRecords_nil hwindow hes
    have hread := hn.holds.readAll_append hlib.wal _ (snapshots_windowRecords hwindow)
      (by rw [hrecords, entsAfter_state]; exact hents)
    rw [lastState_window hwindow, if_pos hall, ← hwal] at hread
    obtain ⟨-, -, hstate, hcovers⟩ := hd.install hwindow.1
    have hpast := hbehind.trans_le hcovers
    refine ⟨_, (startRaft_eq hlib (replayWAL_eq hlib hload hn.holds.snapshot_zero hread)).trans
      (if_neg ?_)⟩
    rintro (hzero | ⟨-, hcommit⟩)
    · exact hstate hzero
    · exact hpast.not_ge hcommit

/-- Where the log of the node goes past the snapshot, the hard state commits it. -/
theorem window_commits (hlib : lib.Lawful) (hn : n.Safe) (hd : d.Possible n)
    (hnew : d.delivery.snapshot ≠ 0) (hes : d.entries = [])
    (hlong : d.hardState.commit ≤ n.image.last)
    (hcrash : (cutDisk lib unmarshal L n d j).CrashesTo disk)
    (hlen : disk.wal.length = n.disk.wal.length + 1) :
    ∃ n', startRaft lib disk = .ok n' ∧ n'.image.snapshot = n.image.snapshot ∧
      n'.image.state = d.hardState ∧ n.image.Keeps n.image.last n'.image := by
  have hwindow : InWindow n d disk.wal.length := ⟨hnew, by omega, by omega⟩
  have hrecords := (windowRecords_nil hwindow hes).2
  obtain ⟨hahead, -, -, hcovers⟩ := hd.install hnew
  have hholds := (hn.holds.hardState ((hn.holds.snapshot_le.trans hahead.le).trans hcovers)
    hlong).more_files (Disk.writes_files n.disk ((readyWrites lib unmarshal n (d.ready L)).take j))
  rw [← hrecords, ← window_wal hlib hd hcrash hwindow] at hholds
  obtain ⟨n', hstart, -, -, -, -, -, hsnapshot, hstate, hkeeps⟩ :=
    startRaft_holds hlib disk (hcrash.files ▸ hholds)
  exact ⟨n', hstart, hsnapshot, hstate, (n.image.keeps_state _ _).trans hkeeps⟩

end WalNode.Safe

/-- A crash in the window of a snapshot that is ahead of the log leaves a disk from which the node
cannot start, and no other crash does. -/
theorem restart_fails_iff (hlib : lib.Lawful) (acts : List WalAct)
    (hacts : Meets (walStep lib unmarshal L) (WalAct.Allowed lib unmarshal L) (started lib) acts)
    (hrun : run (walStep lib unmarshal L) (started lib) acts = some n) (hd : d.Possible n)
    (hbehind : d.delivery.snapshot ≠ 0 → n.readable lib < d.delivery.snapshot)
    (hcrash : (cutDisk lib unmarshal L n d j).CrashesTo disk) :
    (∃ e, startRaft lib disk = .error e) ↔ InWindow n d disk.wal.length := by
  have hn := safe_walRun hlib hacts hrun
  constructor
  · intro ⟨e, he⟩
    by_contra hwindow
    obtain ⟨n', hstart, -⟩ := hn.restart hlib hd hcrash hwindow
    rw [he] at hstart
    cases hstart
  · intro hwindow
    exact hn.window_fails hlib hd hcrash hwindow (hbehind hwindow.1)

theorem restart_fails_follower :
    InWindow follower (snapshotAt 5) 5 ∧ ∃ e,
      startRaft reference ⟨follower.disk.wal ++ [.state ⟨2, 0, 5⟩], 5, []⟩ = .error e := by
  have hwindow : InWindow follower (snapshotAt 5) 5 := ⟨by decide, by decide, by decide⟩
  have hcrash : (cutDisk reference (fun _ => none) emptyLog follower (snapshotAt 5) 1).CrashesTo
      ⟨follower.disk.wal ++ [.state ⟨2, 0, 5⟩], 5, []⟩ := ⟨by decide, by decide, rfl, by decide⟩
  exact ⟨hwindow, (restart_fails_iff lawful_reference [.serve firstEntries] follower_meets
    follower_run (snapshotAt_possible (by decide) (by decide)) (fun _ => by decide) hcrash).mpr
    hwindow⟩

/-- A snapshot that replaces a log of at least its length. The raft library installs it because the
entry at its index conflicts with it, and after a crash between the hard state and the snapshot the
node takes this entry for committed. -/
theorem conflicting_entry_committed (hlib : lib.Lawful) (acts : List WalAct)
    (hacts : Meets (walStep lib unmarshal L) (WalAct.Allowed lib unmarshal L) (started lib) acts)
    (hrun : run (walStep lib unmarshal L) (started lib) acts = some n) (hd : d.Possible n)
    (hnew : d.delivery.snapshot ≠ 0) (hes : d.entries = [])
    (hlong : d.hardState.commit ≤ n.image.last) {e : LogEntry}
    (he : n.image.stored? d.delivery.snapshot = some e)
    (hcrash : (cutDisk lib unmarshal L n d j).CrashesTo disk)
    (hlen : disk.wal.length = n.disk.wal.length + 1) :
    ∃ n', startRaft lib disk = .ok n' ∧ n'.image.stored? d.delivery.snapshot = some e ∧
      d.delivery.snapshot ≤ n'.image.state.commit := by
  have hn := safe_walRun hlib hacts hrun
  obtain ⟨hahead, -, -, hcovers⟩ := hd.install hnew
  obtain ⟨n', hstart, hsnapshot, hstate, hkeeps⟩ :=
    hn.window_commits hlib hd hnew hes hlong hcrash hlen
  refine ⟨n', hstart, ?_, ?_⟩
  · rw [hkeeps.entry _ (hcovers.trans hlong) (by
      rw [hsnapshot]
      exact hn.holds.snapshot_le.trans_lt hahead), he]
  · rw [hstate]
    exact hcovers

/-- The entry of term one is committed in the place of a snapshot of term two. -/
theorem conflicting_entry_follower :
    ∃ n', startRaft reference ⟨follower.disk.wal ++ [.state ⟨2, 0, 2⟩], 5, []⟩ = .ok n' ∧
      n'.image.stored? 2 = some ⟨1, .normal, []⟩ ∧ 2 ≤ n'.image.state.commit :=
  have hcrash : (cutDisk reference (fun _ => none) emptyLog follower (snapshotAt 2) 1).CrashesTo
      ⟨follower.disk.wal ++ [.state ⟨2, 0, 2⟩], 5, []⟩ := ⟨by decide, by decide, rfl, by decide⟩
  conflicting_entry_committed lawful_reference [.serve firstEntries] follower_meets follower_run
    (snapshotAt_possible (by decide) (by decide)) (by decide) rfl (by decide) (by decide) hcrash rfl

end Ecos.Raft
