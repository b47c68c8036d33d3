import Mathlib.Data.List.Basic
import Mathlib.Data.List.Sort
import Mathlib.Data.List.Infix

namespace Ecos.Etcd

structure HardState where
  term : ℕ := 0
  vote : ℕ := 0
  commit : ℕ := 0
  deriving DecidableEq, Repr

structure SnapMeta where
  index : ℕ := 0
  term : ℕ := 0
  deriving DecidableEq, Repr

inductive Record (α : Type) where
  | entry (index : ℕ) (e : α)
  | state (st : HardState)
  | snapshot (s : SnapMeta)
  deriving DecidableEq, Repr

inductive WalError where
  | sliceOutOfRange
  | snapshotMismatch
  | snapshotNotFound
  deriving DecidableEq, Repr

variable {α : Type}

def snapshots (records : List (Record α)) : List SnapMeta :=
  records.filterMap fun
    | .snapshot s => some s
    | _ => none

def lastState (records : List (Record α)) : HardState :=
  records.foldl (fun st r => match r with
    | .state st' => st'
    | _ => st) {}

/-- The order of the names of snapshot files, by term and then by index. -/
def newer (a b : SnapMeta) : Prop := b.term < a.term ∨ b.term = a.term ∧ b.index ≤ a.index

instance : DecidableRel newer := fun _ _ => inferInstanceAs (Decidable (_ ∨ _))

structure Disk (α : Type) where
  wal : List (Record α)
  /-- the number of records that are synced -/
  synced : ℕ
  files : List SnapMeta
  deriving DecidableEq, Repr

inductive Write (α : Type) where
  | record (r : Record α)
  | sync
  | file (s : SnapMeta)
  deriving DecidableEq, Repr

namespace Disk

def write (d : Disk α) : Write α → Disk α
  | .record r => { d with wal := d.wal ++ [r] }
  | .sync => { d with synced := d.wal.length }
  | .file s => { d with files := d.files ++ [s] }

def writes (d : Disk α) (ws : List (Write α)) : Disk α := ws.foldl write d

end Disk

def entryRecords (first : ℕ) : List α → List (Record α)
  | [] => []
  | e :: es => .entry first e :: entryRecords (first + 1) es

def entsAfter (b : ℕ) (records : List (Record α)) : Option (List α) :=
  records.foldlM (fun ents r => match r with
    | .entry index e =>
      if b < index then
        if ents.length < index - b - 1 then none else some (ents.take (index - b - 1) ++ [e])
      else some ents
    | _ => some ents) []

/-- What a raft node uses of the packages `wal` and `snap`. A log is known by its records, and
`Save` and `SaveSnapshot` by what they write. -/
structure WalOps (α : Type) where
  create : Disk α
  /-- `Save`, with the hard state that was saved last -/
  save : HardState → HardState → ℕ → List α → List (Write α)
  saveSnapshot : SnapMeta → List (Write α)
  validSnapshotEntries : List (Record α) → List SnapMeta
  /-- `LoadNewestAvailable` of the snapshot files, for the markers of a log -/
  loadNewestAvailable : List SnapMeta → List SnapMeta → Option SnapMeta
  /-- `ReadAll` of a log that was opened at a snapshot -/
  readAll : SnapMeta → List (Record α) → Except WalError (HardState × List α)

/-- What is assumed of the packages. -/
structure WalOps.Lawful (ops : WalOps α) : Prop where
  /-- a new log has an empty marker -/
  create : ops.create = ⟨[.snapshot {}], 1, []⟩
  /-- `Save` appends the entries and then the hard state. It syncs, but for a hard state that comes
  alone with the same term and vote. -/
  save : ∀ prev st first es, ops.save prev st first es =
    if st = {} ∧ es = [] then []
    else
      (entryRecords first es).map .record ++ (if st = {} then [] else [.record (.state st)]) ++
        if es ≠ [] ∨ st.vote ≠ prev.vote ∨ st.term ≠ prev.term then [.sync] else []
  saveSnapshot : ∀ s, ops.saveSnapshot s = [.record (.snapshot s), .sync]
  /-- markers ahead of the commit index are left out -/
  mem_valid : ∀ rs s, s ∈ ops.validSnapshotEntries rs ↔
    s ∈ snapshots rs ∧ s.index ≤ (lastState rs).commit
  load_mem : ∀ files walSnaps s, ops.loadNewestAvailable files walSnaps = some s → s ∈ walSnaps
  load_newest : ∀ files walSnaps s t, ops.loadNewestAvailable files walSnaps = some s →
    t ∈ files → t ∈ walSnaps → s = t ∨ newer s t
  load_isSome : ∀ files walSnaps t, t ∈ files → t ∈ walSnaps →
    (ops.loadNewestAvailable files walSnaps).isSome
  /-- a reading that finds the marker of its snapshot, and no other one at its index, has the last
  hard state and the entries after the snapshot, where each entry replaces those from its index
  on -/
  readAll : ∀ start rs ents, entsAfter start.index rs = some ents → start ∈ snapshots rs →
    (∀ s ∈ snapshots rs, s.index = start.index → s = start) →
    ops.readAll start rs = .ok (lastState rs, ents)
  /-- entries with a gap are not read -/
  readAll_gap : ∀ start rs, entsAfter start.index rs = none → ∃ e, ops.readAll start rs = .error e

/-- What a crash may leave of a disk: all that is synced, the records up to some point, and the
snapshot files. -/
structure Disk.CrashesTo (d d' : Disk α) : Prop where
  wal : d'.wal <+: d.wal
  synced_le : d.synced ≤ d'.wal.length
  synced : d'.synced = d'.wal.length
  files : d'.files = d.files

theorem entsAfter_concat (b : ℕ) (rs : List (Record α)) (r : Record α) :
    entsAfter b (rs ++ [r]) = (entsAfter b rs).bind fun ents =>
      match r with
      | .entry index e =>
        if b < index then
          if ents.length < index - b - 1 then none else some (ents.take (index - b - 1) ++ [e])
        else some ents
      | _ => some ents := by
  rw [entsAfter, List.foldlM_append]
  simp only [List.foldlM_cons, List.foldlM_nil, bind_pure]
  rfl

theorem entsAfter_entry {b index : ℕ} {rs : List (Record α)} {ents : List α}
    (h : entsAfter b rs = some ents) (hb : b < index) (hroom : index - b - 1 ≤ ents.length)
    (e : α) : entsAfter b (rs ++ [.entry index e]) = some (ents.take (index - b - 1) ++ [e]) := by
  rw [entsAfter_concat, h, Option.bind_some]
  dsimp only
  rw [if_pos hb, if_neg (Nat.not_lt.mpr hroom)]

/-- A gap stays one. -/
theorem entsAfter_gap {b index : ℕ} {rs : List (Record α)} {ents : List α}
    (h : entsAfter b rs = some ents) (hgap : ents.length < index - b - 1) (e : α)
    (rs' : List (Record α)) : entsAfter b (rs ++ .entry index e :: rs') = none := by
  have hfirst : entsAfter b (rs ++ [.entry index e]) = none := by
    rw [entsAfter_concat, h, Option.bind_some]
    dsimp only
    rw [if_pos (by omega), if_pos hgap]
  rw [List.append_cons]
  induction rs' using List.reverseRecOn with
  | nil =>
    rw [List.append_nil]
    exact hfirst
  | append_singleton rs' r ih =>
    rw [← List.append_assoc, entsAfter_concat, ih]
    rfl

@[simp] theorem entsAfter_state (b : ℕ) (rs : List (Record α)) (st : HardState) :
    entsAfter b (rs ++ [.state st]) = entsAfter b rs := by
  rw [entsAfter_concat]
  exact Option.bind_fun_some _

@[simp] theorem entsAfter_snapshot (b : ℕ) (rs : List (Record α)) (s : SnapMeta) :
    entsAfter b (rs ++ [.snapshot s]) = entsAfter b rs := by
  rw [entsAfter_concat]
  exact Option.bind_fun_some _

theorem snapshots_append (rs rs' : List (Record α)) :
    snapshots (rs ++ rs') = snapshots rs ++ snapshots rs' := List.filterMap_append

@[simp] theorem snapshots_concat (rs : List (Record α)) (r : Record α) :
    snapshots (rs ++ [r]) = snapshots rs ++ (match r with
      | .snapshot s => [s]
      | _ => []) := by
  cases r <;> simp [snapshots]

@[simp] theorem lastState_concat (rs : List (Record α)) (r : Record α) :
    lastState (rs ++ [r]) = match r with
      | .state st => st
      | _ => lastState rs := by
  cases r <;> simp [lastState]

/-- A list and a continuation of it have the same first elements. -/
theorem take_eq_of_isPrefix {l l' : List α} (h : l <+: l') {n : ℕ} (hn : n ≤ l.length) :
    l.take n = l'.take n := by
  obtain ⟨t, rfl⟩ := h
  rw [List.take_append_of_le_length hn]

/-- A reading from a later index on has what an earlier one has there. It may have more: it does not
see that an entry before its start has replaced the ones after it. -/
theorem entsAfter_drop {b c : ℕ} (hbc : b ≤ c) {rs : List (Record α)} {ents : List α}
    (h : entsAfter b rs = some ents) :
    ∃ ents', entsAfter c rs = some ents' ∧ ents.drop (c - b) <+: ents' := by
  induction rs using List.reverseRecOn generalizing ents with
  | nil =>
    cases h
    exact ⟨[], rfl, by simp⟩
  | append_singleton rs r ih =>
    rw [entsAfter_concat, Option.bind_eq_some_iff] at h
    obtain ⟨ents₀, h₀, hr⟩ := h
    obtain ⟨ents₁, h₁, hlead⟩ := ih h₀
    rw [entsAfter_concat, h₁, Option.bind_some]
    cases r with
    | entry index e =>
      dsimp only at hr ⊢
      by_cases hb : b < index
      · rw [if_pos hb] at hr
        split_ifs at hr with hlen
        cases hr
        by_cases hc : c < index
        · -- the entry is after both starts
          have hlen₁ := hlead.length_le
          rw [List.length_drop] at hlen₁
          rw [if_pos hc, if_neg (by omega)]
          refine ⟨_, rfl, ?_⟩
          have htake : (ents₀.take (index - b - 1) ++ [e]).drop (c - b) =
              ents₁.take (index - c - 1) ++ [e] := by
            rw [List.drop_append_of_le_length (by rw [List.length_take]; omega), List.drop_take,
              show index - b - 1 - (c - b) = index - c - 1 by omega,
              take_eq_of_isPrefix hlead (by rw [List.length_drop]; omega)]
          rw [htake]
        · -- it cuts off all that the earlier reading has from `c` on
          rw [if_neg hc]
          refine ⟨ents₁, rfl, ?_⟩
          rw [List.drop_eq_nil_of_le]
          · exact List.nil_prefix
          · rw [List.length_append, List.length_take, List.length_singleton]
            omega
      · rw [if_neg hb] at hr
        cases hr
        rw [if_neg (by omega)]
        exact ⟨ents₁, rfl, hlead⟩
    | state st =>
      cases hr
      exact ⟨ents₁, rfl, hlead⟩
    | snapshot s =>
      cases hr
      exact ⟨ents₁, rfl, hlead⟩

structure Image (α : Type) where
  snapshot : SnapMeta := {}
  ents : List α := []
  state : HardState := {}
  deriving DecidableEq, Repr

namespace Image

def last (im : Image α) : ℕ := im.snapshot.index + im.ents.length

def stored? (im : Image α) (i : ℕ) : Option α :=
  if i ≤ im.snapshot.index then none else im.ents[i - im.snapshot.index - 1]?

theorem stored?_of_lt (im : Image α) {i : ℕ} (h : im.snapshot.index < i) :
    im.stored? i = im.ents[i - im.snapshot.index - 1]? := if_neg (Nat.not_le.mpr h)

def put (im : Image α) : Record α → Image α
  | .entry index e => { im with ents := im.ents.take (index - im.snapshot.index - 1) ++ [e] }
  | .state st => { im with state := st }
  | .snapshot s => { im with
      snapshot := s, ents := im.ents.drop (s.index - im.snapshot.index) }

structure Same (im im' : Image α) : Prop where
  snapshot : im'.snapshot = im.snapshot
  ents : im'.ents = im.ents
  term : im'.state.term = im.state.term
  vote : im'.state.vote = im.state.vote
  commit_le : im'.state.commit ≤ im.state.commit

theorem Same.refl (im : Image α) : im.Same im := ⟨rfl, rfl, rfl, rfl, Nat.le_refl _⟩

/-- The later image has the entries up to an index that are not in its snapshot. -/
structure Keeps (c : ℕ) (im im' : Image α) : Prop where
  snapshot_le : im.snapshot.index ≤ im'.snapshot.index
  entry : ∀ i ≤ c, im'.snapshot.index < i → im'.stored? i = im.stored? i

theorem Keeps.trans {c : ℕ} {im im' im'' : Image α} (h : im.Keeps c im') (h' : im'.Keeps c im'') :
    im.Keeps c im'' where
  snapshot_le := h.snapshot_le.trans h'.snapshot_le
  entry i hi hlt := (h'.entry i hi hlt).trans (h.entry i hi (h'.snapshot_le.trans_lt hlt))

theorem Keeps.mono {c c' : ℕ} {im im' : Image α} (h : im.Keeps c im') (hc : c' ≤ c) :
    im.Keeps c' im' := ⟨h.snapshot_le, fun i hi => h.entry i (hi.trans hc)⟩

theorem Same.keeps {im im' : Image α} (h : im.Same im') (c : ℕ) : im.Keeps c im' where
  snapshot_le := (congrArg SnapMeta.index h.snapshot).ge
  entry i _ _ := by rw [stored?, stored?, h.snapshot, h.ents]

/-- What is kept is there. -/
theorem Keeps.le_last {c : ℕ} {im im' : Image α} (h : im.Keeps c im') (hc : c ≤ im.last) :
    c ≤ im'.last := by
  rcases Nat.lt_or_ge im'.snapshot.index c with hlt | hle
  · have hentry := h.entry c (Nat.le_refl c) hlt
    rw [stored?_of_lt _ hlt, im.stored?_of_lt (h.snapshot_le.trans_lt hlt)] at hentry
    have hsnapshot := h.snapshot_le
    unfold last at hc ⊢
    by_contra hshort
    rw [List.getElem?_eq_none (by omega)] at hentry
    have hlen := List.getElem?_eq_none_iff.mp hentry.symm
    omega
  · exact hle.trans (Nat.le_add_right _ _)

theorem keeps_state (im : Image α) (c : ℕ) (st : HardState) : im.Keeps c (im.put (.state st)) :=
  ⟨Nat.le_refl _, fun _ _ _ => rfl⟩

theorem keeps_snapshot (im : Image α) (c : ℕ) {s : SnapMeta} (hs : im.snapshot.index ≤ s.index) :
    im.Keeps c (im.put (.snapshot s)) where
  snapshot_le := hs
  entry i _ hlt := by
    rw [stored?_of_lt _ hlt, im.stored?_of_lt (hs.trans_lt hlt)]
    dsimp only [put] at hlt ⊢
    rw [List.getElem?_drop, show s.index - im.snapshot.index + (i - s.index - 1) =
      i - im.snapshot.index - 1 by omega]

/-- A snapshot from elsewhere covers every index up to its own. -/
theorem keeps_install {im im' : Image α} {c : ℕ} (hs : im.snapshot.index ≤ im'.snapshot.index)
    (hc : c ≤ im'.snapshot.index) : im.Keeps c im' :=
  ⟨hs, fun _ hi hlt => absurd (hi.trans hc) (Nat.not_le.mpr hlt)⟩

theorem keeps_stale (im : Image α) {ents : List α} (h : im.ents <+: ents) :
    im.Keeps im.last { im with ents := ents } where
  snapshot_le := Nat.le_refl _
  entry i hi hlt := by
    obtain ⟨t, rfl⟩ := h
    rw [stored?_of_lt _ hlt, im.stored?_of_lt hlt]
    unfold last at hi
    dsimp only at hlt ⊢
    rw [List.getElem?_append_left (by omega)]

end Image

/-- The log and the snapshot files hold the image, and a restart finds its snapshot. The log may
have stale entries after those of the image. -/
structure Holds (wal : List (Record α)) (files : List SnapMeta) (im : Image α) : Prop where
  created : {} ∈ snapshots wal
  marked : im.snapshot ∈ snapshots wal
  older : ∀ s ∈ snapshots wal,
    s = im.snapshot ∨ s.index < im.snapshot.index ∧ s.term ≤ im.snapshot.term
  filed : ∀ s ∈ snapshots wal, s.index ≠ 0 → s ∈ files
  ents : ∃ ents, entsAfter im.snapshot.index wal = some ents ∧ im.ents <+: ents
  state : lastState wal = im.state
  snapshot_le : im.snapshot.index ≤ im.state.commit
  commit_le : im.state.commit ≤ im.last

/-- Records that keep the snapshot readable: an entry replaces nothing that is committed and leaves
no gap, and a marker has its file and is committed. -/
def Allowed (files : List SnapMeta) (im : Image α) : Record α → Prop
  | .entry index _ => im.state.commit < index ∧ index ≤ im.last + 1
  | .state st => im.snapshot.index ≤ st.commit ∧ st.commit ≤ im.last
  | .snapshot s => im.snapshot.index < s.index ∧ im.snapshot.term ≤ s.term ∧
      s.index ≤ im.state.commit ∧ s ∈ files

namespace Holds

variable {wal : List (Record α)} {files : List SnapMeta} {im : Image α} {ops : WalOps α}

theorem create : Holds ([.snapshot {}] : List (Record α)) [] {} where
  created := List.mem_singleton.mpr rfl
  marked := List.mem_singleton.mpr rfl
  older _ hs := .inl (List.mem_singleton.mp hs)
  filed _ hs hne := absurd (congrArg SnapMeta.index (List.mem_singleton.mp hs)) hne
  ents := ⟨[], rfl, List.nil_prefix⟩
  state := rfl
  snapshot_le := Nat.le_refl 0
  commit_le := Nat.le_refl 0

theorem more_files (h : Holds wal files im) {files' : List SnapMeta} (hfiles : files <+: files') :
    Holds wal files' im :=
  { h with filed := fun t ht hne => hfiles.subset (h.filed t ht hne) }

/-- A restart takes the snapshot of the image, or none where it is the empty one. Later records
without a marker do not change that, as long as the snapshot stays committed. -/
theorem newest (hops : ops.Lawful) (h : Holds wal files im) {files' : List SnapMeta}
    (hfiles : files <+: files') (rs : List (Record α)) (hrs : snapshots rs = [])
    (hle : im.snapshot.index ≤ (lastState (wal ++ rs)).commit) :
    (ops.loadNewestAvailable files' (ops.validSnapshotEntries (wal ++ rs))).getD {} =
      im.snapshot := by
  have hsnapshots : snapshots (wal ++ rs) = snapshots wal := by
    rw [snapshots_append, hrs, List.append_nil]
  have hvalid : im.snapshot ∈ ops.validSnapshotEntries (wal ++ rs) := by
    rw [hops.mem_valid, hsnapshots]
    exact ⟨h.marked, hle⟩
  cases hload : ops.loadNewestAvailable files' (ops.validSnapshotEntries (wal ++ rs)) with
  | none =>
    -- only the empty snapshot has no file
    rcases h.older {} h.created with hzero | ⟨hlt, -⟩
    · exact hzero
    · have hsome := hops.load_isSome _ _ _
        (hfiles.subset (h.filed im.snapshot h.marked (Nat.ne_of_gt hlt))) hvalid
      rw [hload] at hsome
      cases hsome
  | some s =>
    have hs : s ∈ snapshots (wal ++ rs) :=
      ((hops.mem_valid _ _).mp (hops.load_mem _ _ _ hload)).1
    rw [hsnapshots] at hs
    rcases h.older s hs with heq | ⟨hlt, hterm⟩
    · exact heq
    · have hfile := hfiles.subset (h.filed im.snapshot h.marked (by omega))
      rcases hops.load_newest _ _ _ _ hload hfile hvalid with heq | hnewer
      · exact heq
      · unfold newer at hnewer
        omega

/-- Reading at the snapshot, with later records that have no marker. -/
theorem readAll_append (hops : ops.Lawful) (h : Holds wal files im) (rs : List (Record α))
    (hrs : snapshots rs = []) {ents : List α}
    (hents : entsAfter im.snapshot.index (wal ++ rs) = some ents) :
    ops.readAll im.snapshot (wal ++ rs) = .ok (lastState (wal ++ rs), ents) := by
  have hsnapshots : snapshots (wal ++ rs) = snapshots wal := by
    rw [snapshots_append, hrs, List.append_nil]
  apply hops.readAll _ _ _ hents
  · rw [hsnapshots]
    exact h.marked
  · intro s hs heq
    rw [hsnapshots] at hs
    rcases h.older s hs with hsame | ⟨hlt, -⟩
    · exact hsame
    · exact absurd heq (Nat.ne_of_lt hlt)

/-- What is read there are the hard state and the entries of the image. -/
theorem readAll (hops : ops.Lawful) (h : Holds wal files im) :
    ∃ ents, ops.readAll im.snapshot wal = .ok (im.state, ents) ∧
      entsAfter im.snapshot.index wal = some ents ∧ im.ents <+: ents ∧
      Holds wal files { im with ents := ents } := by
  obtain ⟨ents, hents, hlead⟩ := h.ents
  refine ⟨ents, ?_, hents, hlead,
    { h with ents := ⟨ents, hents, List.prefix_rfl⟩, commit_le := ?_ }⟩
  · have hread := h.readAll_append hops [] rfl (by rw [List.append_nil]; exact hents)
    rwa [List.append_nil, h.state] at hread
  · exact h.commit_le.trans (Nat.add_le_add_left hlead.length_le _)

/-- The empty snapshot is the only one at index zero. -/
theorem snapshot_zero (h : Holds wal files im) : im.snapshot = {} ∨ 0 < im.snapshot.index := by
  rcases h.older {} h.created with hzero | ⟨hlt, -⟩
  · exact .inl hzero.symm
  · exact .inr hlt

/-- An entry that replaces nothing committed and leaves no gap. -/
theorem entry (h : Holds wal files im) {index : ℕ} (hlow : im.state.commit < index)
    (hgap : index ≤ im.last + 1) (e : α) :
    Holds (wal ++ [.entry index e]) files (im.put (.entry index e)) := by
  obtain ⟨ents, hents, hlead⟩ := h.ents
  have hsnapshot := h.snapshot_le
  have hlen := hlead.length_le
  have hroom : index - im.snapshot.index - 1 ≤ im.ents.length := by
    unfold Image.last at hgap
    omega
  refine ⟨?_, ?_, ?_, ?_, ⟨im.ents.take (index - im.snapshot.index - 1) ++ [e], ?_,
    List.prefix_rfl⟩, ?_, hsnapshot, ?_⟩
  · simpa using h.created
  · simpa [Image.put] using h.marked
  · simpa [Image.put] using h.older
  · simpa using h.filed
  · rw [take_eq_of_isPrefix hlead hroom]
    exact entsAfter_entry hents (by omega) (by omega) e
  · simpa [Image.put] using h.state
  · simp only [Image.put, Image.last, List.length_append, List.length_take, List.length_singleton]
    omega

theorem hardState (h : Holds wal files im) {st : HardState}
    (hlow : im.snapshot.index ≤ st.commit) (hhigh : st.commit ≤ im.last) :
    Holds (wal ++ [.state st]) files (im.put (.state st)) where
  created := by simpa using h.created
  marked := by simpa [Image.put] using h.marked
  older := by simpa [Image.put] using h.older
  filed := by simpa using h.filed
  ents := by simpa [Image.put] using h.ents
  state := by simp [Image.put]
  snapshot_le := hlow
  commit_le := hhigh

/-- A marker, with the entries that are readable from it on. -/
theorem marker (h : Holds wal files im) {s : SnapMeta} (hlt : im.snapshot.index < s.index)
    (hterm : im.snapshot.term ≤ s.term) (hfile : s ∈ files) (rs : List (Record α))
    (hrs : snapshots rs = []) (im' : Image α) (hs : im'.snapshot = s)
    (hents : ∃ ents, entsAfter s.index (wal ++ rs) = some ents ∧ im'.ents <+: ents)
    (hstate : lastState (wal ++ rs) = im'.state) (hlow : s.index ≤ im'.state.commit)
    (hhigh : im'.state.commit ≤ im'.last) :
    Holds (wal ++ rs ++ [.snapshot s]) files im' := by
  have hsnapshots : snapshots (wal ++ rs ++ [.snapshot s]) = snapshots wal ++ [s] := by
    rw [snapshots_concat, snapshots_append, hrs, List.append_nil]
  subst hs
  refine ⟨?_, ?_, ?_, ?_, ?_, ?_, hlow, hhigh⟩
  · rw [hsnapshots]
    exact List.mem_append_left _ h.created
  · rw [hsnapshots]
    exact List.mem_append_right _ (List.mem_singleton.mpr rfl)
  · intro t ht
    rw [hsnapshots, List.mem_append, List.mem_singleton] at ht
    rcases ht with ht | rfl
    · rcases h.older t ht with rfl | ⟨hlt', hterm'⟩
      · exact .inr ⟨hlt, hterm⟩
      · exact .inr ⟨hlt'.trans hlt, hterm'.trans hterm⟩
    · exact .inl rfl
  · intro t ht hne
    rw [hsnapshots, List.mem_append, List.mem_singleton] at ht
    rcases ht with ht | rfl
    · exact h.filed t ht hne
    · exact hfile
  · rwa [entsAfter_snapshot]
  · rwa [lastState_concat]

/-- One record that is allowed. -/
theorem put (h : Holds wal files im) {r : Record α} (hr : Allowed files im r) :
    Holds (wal ++ [r]) files (im.put r) := by
  cases r with
  | entry index e => exact h.entry hr.1 hr.2 e
  | state st => exact h.hardState hr.1 hr.2
  | snapshot s =>
    obtain ⟨hlt, hterm, hle, hfile⟩ := hr
    obtain ⟨ents, hents, hlead⟩ := h.ents
    obtain ⟨ents', hents', hlead'⟩ := entsAfter_drop (Nat.le_of_lt hlt) hents
    have hcommit := h.commit_le
    have hmarker := h.marker hlt hterm hfile [] rfl (im.put (.snapshot s)) rfl
      ⟨ents', by rw [List.append_nil]; exact hents', (hlead.drop _).trans hlead'⟩
      (by rw [List.append_nil]; exact h.state) hle ?_
    · rwa [List.append_nil] at hmarker
    · unfold Image.last at hcommit
      simp only [Image.put, Image.last, List.length_drop]
      omega

end Holds

/-- Whatever records a crash leaves, the disk holds an image with this property. -/
def Survives (d : Disk α) (P : Image α → Prop) : Prop :=
  ∀ k, d.synced ≤ k → k ≤ d.wal.length → ∃ im, Holds (d.wal.take k) d.files im ∧ P im

theorem Disk.CrashesTo.wal_eq {d d' : Disk α} (h : d.CrashesTo d') :
    d.wal.take d'.wal.length = d'.wal := (List.prefix_iff_eq_take.mp h.wal).symm

theorem Survives.crash {d d' : Disk α} {P : Image α → Prop} (hd : Survives d P)
    (h : d.CrashesTo d') : ∃ im, Holds d'.wal d'.files im ∧ P im := by
  have him := hd _ h.synced_le h.wal.length_le
  rwa [h.wal_eq, ← h.files] at him

namespace Disk

@[simp] theorem writes_nil (d : Disk α) : d.writes [] = d := rfl

theorem writes_append (d : Disk α) (ws ws' : List (Write α)) :
    d.writes (ws ++ ws') = (d.writes ws).writes ws' := List.foldl_append

theorem writes_wal (d : Disk α) (ws : List (Write α)) : d.wal <+: (d.writes ws).wal := by
  induction ws generalizing d with
  | nil => exact List.prefix_rfl
  | cons w ws ih =>
    refine List.IsPrefix.trans ?_ (ih (d.write w))
    cases w with
    | record r => exact List.prefix_append _ _
    | sync => exact List.prefix_rfl
    | file s => exact List.prefix_rfl

theorem writes_files (d : Disk α) (ws : List (Write α)) : d.files <+: (d.writes ws).files := by
  induction ws generalizing d with
  | nil => exact List.prefix_rfl
  | cons w ws ih =>
    refine List.IsPrefix.trans ?_ (ih (d.write w))
    cases w with
    | record r => exact List.prefix_rfl
    | sync => exact List.prefix_rfl
    | file s => exact List.prefix_append _ _

/-- Fewer writes leave less of the log. -/
theorem writes_take (d : Disk α) (ws : List (Write α)) (j : ℕ) :
    (d.writes (ws.take j)).wal <+: (d.writes ws).wal := by
  conv_rhs => rw [← List.take_append_drop j ws, writes_append]
  exact writes_wal _ _

/-- A sync is never undone, and it never covers more than what is there. -/
theorem writes_synced (d : Disk α) (ws : List (Write α)) (h : d.synced ≤ d.wal.length) :
    d.synced ≤ (d.writes ws).synced ∧ (d.writes ws).synced ≤ (d.writes ws).wal.length := by
  induction ws generalizing d with
  | nil => exact ⟨Nat.le_refl _, h⟩
  | cons w ws ih =>
    have hw : d.synced ≤ (d.write w).synced ∧ (d.write w).synced ≤ (d.write w).wal.length := by
      cases w with
      | record r =>
        dsimp only [write]
        rw [List.length_append]
        exact ⟨Nat.le_refl _, Nat.le_add_right_of_le h⟩
      | sync => exact ⟨h, Nat.le_refl _⟩
      | file s => exact ⟨Nat.le_refl _, h⟩
    exact ⟨hw.1.trans (ih _ hw.2).1, (ih _ hw.2).2⟩

theorem writes_records (d : Disk α) (rs : List (Record α)) :
    d.writes (rs.map .record) = { d with wal := d.wal ++ rs } := by
  induction rs generalizing d with
  | nil => simp
  | cons r rs ih =>
    rw [List.map_cons, writes, List.foldl_cons]
    exact (ih _).trans (by simp [write])

end Disk

namespace Survives

variable {d : Disk α} {P Q : Image α → Prop} {im : Image α}

theorem mono (h : Survives d P) (hPQ : ∀ im, P im → Q im) : Survives d Q := fun k hk hk' =>
  let ⟨im, hholds, hP⟩ := h k hk hk'
  ⟨im, hholds, hPQ im hP⟩

theorem file (h : Survives d P) (s : SnapMeta) : Survives (d.write (.file s)) P := fun k hk hk' =>
  let ⟨im, hholds, hP⟩ := h k hk hk'
  ⟨im, hholds.more_files (List.prefix_append _ _), hP⟩

theorem record (h : Survives d P) {r : Record α} (hr : Holds (d.wal ++ [r]) d.files im)
    (hP : P im) : Survives (d.write (.record r)) P := by
  intro k hk hk'
  dsimp only [Disk.write] at hk hk' ⊢
  rcases Nat.lt_or_ge d.wal.length k with hlt | hle
  · rw [List.take_of_length_le (by rw [List.length_append, List.length_singleton]; omega)]
    exact ⟨im, hr, hP⟩
  · rw [List.take_append_of_le_length hle]
    exact h k hk hle

/-- After a sync nothing is lost. -/
theorem sync (h : Holds d.wal d.files im) (hP : P im) : Survives (d.write .sync) P := by
  intro k hk hk'
  dsimp only [Disk.write] at hk hk' ⊢
  rw [List.take_of_length_le hk]
  exact ⟨im, h, hP⟩

/-- Where everything is synced, nothing is lost. -/
theorem of_synced (h : Holds d.wal d.files im) (hd : d.wal.length ≤ d.synced) :
    Survives d im.Same := by
  intro k hk _
  rw [List.take_of_length_le (hd.trans hk)]
  exact ⟨im, h, .refl im⟩

end Survives

namespace Image

def puts (im : Image α) (rs : List (Record α)) : Image α := rs.foldl put im

/-- The image after `Save`. -/
def saved (im : Image α) (st : HardState) (first : ℕ) (es : List α) : Image α :=
  let im := im.puts (entryRecords first es)
  if st = {} then im else im.put (.state st)

theorem puts_entryRecords (im : Image α) {first : ℕ} {es : List α}
    (hlow : im.snapshot.index < first) (hgap : first ≤ im.last + 1) :
    im.puts (entryRecords first es) = if es = [] then im else
      { im with ents := im.ents.take (first - im.snapshot.index - 1) ++ es } := by
  induction es generalizing im first with
  | nil => rfl
  | cons e es ih =>
    unfold last at hgap
    have hlen : (im.ents.take (first - im.snapshot.index - 1) ++ [e]).length =
        first - im.snapshot.index := by
      rw [List.length_append, List.length_take, List.length_singleton]
      omega
    have hnext := ih (im.put (.entry first e)) (Nat.lt_succ_of_lt hlow)
      (by
        dsimp only [put, last]
        rw [hlen]
        omega)
    rw [entryRecords, puts, List.foldl_cons, if_neg (List.cons_ne_nil _ _)]
    refine hnext.trans ?_
    dsimp only [put]
    split
    · rename_i hnil
      rw [hnil]
    · rw [List.take_of_length_le (by rw [hlen]; omega), List.append_assoc, List.singleton_append]

end Image

theorem entsAfter_entryRecords {b first : ℕ} {rs : List (Record α)} {ents : List α} (es : List α)
    (h : entsAfter b rs = some ents) (hb : b < first) (hroom : first - b - 1 ≤ ents.length) :
    entsAfter b (rs ++ entryRecords first es) =
      some (if es = [] then ents else ents.take (first - b - 1) ++ es) := by
  induction es generalizing rs ents first with
  | nil =>
    rw [entryRecords, List.append_nil, if_pos rfl]
    exact h
  | cons e es ih =>
    have hlen : (ents.take (first - b - 1) ++ [e]).length = first - b := by
      rw [List.length_append, List.length_take, List.length_singleton]
      omega
    have hnext := ih (entsAfter_entry h hb hroom e) (Nat.lt_succ_of_lt hb)
      (by rw [hlen]; omega)
    rw [List.append_assoc, List.singleton_append] at hnext
    rw [entryRecords, hnext, if_neg (List.cons_ne_nil _ _)]
    split
    · rename_i hnil
      rw [hnil]
    · rw [List.take_of_length_le (by rw [hlen]; omega), List.append_assoc, List.singleton_append]

@[simp] theorem length_entryRecords (first : ℕ) (es : List α) :
    (entryRecords first es).length = es.length := by
  induction es generalizing first with
  | nil => rfl
  | cons e es ih => exact congrArg (· + 1) (ih (first + 1))

theorem take_entryRecords (first : ℕ) (es : List α) (m : ℕ) :
    (entryRecords first es).take m = entryRecords first (es.take m) := by
  induction es generalizing first m with
  | nil => simp [entryRecords]
  | cons e es ih =>
    cases m with
    | zero => rfl
    | succ m => exact congrArg (Record.entry first e :: ·) (ih (first + 1) m)

@[simp] theorem lastState_entryRecords (rs : List (Record α)) (first : ℕ) (es : List α) :
    lastState (rs ++ entryRecords first es) = lastState rs := by
  induction es generalizing rs first with
  | nil => rw [entryRecords, List.append_nil]
  | cons e es ih =>
    have hnext := ih (rs ++ [.entry first e]) (first + 1)
    rw [List.append_assoc, List.singleton_append, lastState_concat] at hnext
    exact hnext

@[simp] theorem snapshots_entryRecords (first : ℕ) (es : List α) :
    snapshots (entryRecords first es) = [] := by
  induction es generalizing first with
  | nil => rfl
  | cons e es ih => exact ih (first + 1)

/-- New entries leave those before them. -/
theorem Image.keeps_entries (im : Image α) {c first : ℕ} {es : List α}
    (hes : es ≠ [] → im.snapshot.index < first ∧ first ≤ im.last + 1 ∧ c < first) :
    im.Keeps c (im.puts (entryRecords first es)) := by
  by_cases hnil : es = []
  · rw [hnil]
    exact (Same.refl im).keeps c
  · obtain ⟨hlow, hgap, hc⟩ := hes hnil
    rw [puts_entryRecords im hlow hgap, if_neg hnil]
    refine ⟨Nat.le_refl _, fun i hi hlt => ?_⟩
    rw [stored?_of_lt _ hlt, im.stored?_of_lt hlt]
    unfold last at hgap
    dsimp only at hlt ⊢
    rw [List.getElem?_append_left (by rw [List.length_take]; omega),
      List.getElem?_take_of_lt (by omega)]

@[simp] theorem Image.puts_entryRecords_snapshot (im : Image α) (first : ℕ) (es : List α) :
    (im.puts (entryRecords first es)).snapshot = im.snapshot := by
  induction es generalizing im first with
  | nil => rfl
  | cons e es ih => exact ih (im.put (.entry first e)) (first + 1)

@[simp] theorem Image.puts_entryRecords_state (im : Image α) (first : ℕ) (es : List α) :
    (im.puts (entryRecords first es)).state = im.state := by
  induction es generalizing im first with
  | nil => rfl
  | cons e es ih => exact ih (im.put (.entry first e)) (first + 1)

@[simp] theorem Image.saved_snapshot (im : Image α) (st : HardState) (first : ℕ) (es : List α) :
    (im.saved st first es).snapshot = im.snapshot := by
  unfold saved
  split_ifs <;> exact im.puts_entryRecords_snapshot first es

@[simp] theorem Image.saved_state (im : Image α) (st : HardState) (first : ℕ) (es : List α) :
    (im.saved st first es).state = if st = {} then im.state else st := by
  unfold saved
  split_ifs
  · exact im.puts_entryRecords_state first es
  · rfl

theorem Image.saved_ents (im : Image α) (st : HardState) (first : ℕ) (es : List α) :
    (im.saved st first es).ents = (im.puts (entryRecords first es)).ents := by
  unfold saved
  split_ifs <;> rfl

/-- These writes lead to a disk with the image, and a crash before, between or after them leaves an
image with the property. -/
structure Leads (P : Image α → Prop) (d : Disk α) (ws : List (Write α)) (im : Image α) : Prop where
  holds : Holds (d.writes ws).wal (d.writes ws).files im
  cuts : ∀ n, Survives (d.writes (ws.take n)) P

namespace Leads

variable {P : Image α → Prop} {d : Disk α} {ws : List (Write α)} {im : Image α} {first : ℕ}
  {es : List α} {ops : WalOps α}

theorem nil (hd : Survives d P) (h : Holds d.wal d.files im) : Leads P d [] im :=
  ⟨h, fun n => by rw [List.take_nil]; exact hd⟩

theorem survives (h : Leads P d ws im) : Survives (d.writes ws) P := by
  simpa using h.cuts ws.length

/-- One more write. -/
theorem concat (h : Leads P d ws im) {w : Write α} {im' : Image α}
    (hholds : Holds ((d.writes ws).write w).wal ((d.writes ws).write w).files im')
    (hsurvives : Survives ((d.writes ws).write w) P) : Leads P d (ws ++ [w]) im' := by
  have hwrites : d.writes (ws ++ [w]) = (d.writes ws).write w := Disk.writes_append d ws [w]
  refine ⟨by rw [hwrites]; exact hholds, fun n => ?_⟩
  rcases Nat.lt_or_ge ws.length n with hlt | hle
  · rw [List.take_of_length_le (by rw [List.length_append, List.length_singleton]; omega), hwrites]
    exact hsurvives
  · rw [List.take_append_of_le_length hle]
    exact h.cuts n

theorem record (h : Leads P d ws im) {r : Record α} (hr : Allowed (d.writes ws).files im r)
    (hP : P (im.put r)) : Leads P d (ws ++ [.record r]) (im.put r) :=
  h.concat (h.holds.put hr) (h.survives.record (h.holds.put hr) hP)

theorem file (h : Leads P d ws im) (s : SnapMeta) : Leads P d (ws ++ [.file s]) im :=
  h.concat (h.holds.more_files (List.prefix_append _ _)) (h.survives.file s)

theorem sync (h : Leads P d ws im) (hP : P im) : Leads P d (ws ++ [.sync]) im :=
  h.concat h.holds (.sync h.holds hP)

theorem entries (h : Leads P d ws im)
    (hes : es ≠ [] → im.state.commit < first ∧ first ≤ im.last + 1)
    (hP : ∀ j, P (im.puts (entryRecords first (es.take j)))) :
    Leads P d (ws ++ (entryRecords first es).map .record) (im.puts (entryRecords first es)) := by
  induction es generalizing ws im first with
  | nil =>
    rw [entryRecords, List.map_nil, List.append_nil]
    exact h
  | cons e es ih =>
    obtain ⟨hlow, hgap⟩ := hes (List.cons_ne_nil e es)
    have hsnapshot := h.holds.snapshot_le
    -- the next entry comes right after this one
    have hlast : (im.put (.entry first e)).last = first := by
      simp only [Image.last] at hgap
      simp only [Image.put, Image.last, List.length_append, List.length_take,
        List.length_singleton]
      omega
    have hrest := ih (h.record (r := .entry first e) ⟨hlow, hgap⟩ (hP 1))
      (fun _ => ⟨Nat.lt_succ_of_lt hlow, by rw [hlast]⟩) (fun j => hP (j + 1))
    rw [List.append_assoc, List.singleton_append] at hrest
    exact hrest

theorem hardState (h : Leads P d ws im) {st : HardState}
    (hst : st ≠ {} → im.snapshot.index ≤ st.commit ∧ st.commit ≤ im.last)
    (hP : P (if st = {} then im else im.put (.state st))) :
    Leads P d (ws ++ if st = {} then [] else [.record (.state st)])
      (if st = {} then im else im.put (.state st)) := by
  split_ifs at hP ⊢ with hempty
  · rw [List.append_nil]
    exact h
  · exact h.record (r := .state st) (hst hempty) hP

/-- `Save` in a disk that has the entries before the new ones. -/
theorem save (hops : ops.Lawful) (h : Leads P d ws im) (prev : HardState) {st : HardState}
    (hes : es ≠ [] → im.state.commit < first ∧ first ≤ im.last + 1)
    (hst : st ≠ {} → im.snapshot.index ≤ st.commit ∧
      st.commit ≤ (im.puts (entryRecords first es)).last)
    (hP : ∀ j, P (im.puts (entryRecords first (es.take j)))) (hP' : P (im.saved st first es)) :
    Leads P d (ws ++ ops.save prev st first es) (im.saved st first es) := by
  by_cases hnone : st = {} ∧ es = []
  · obtain ⟨rfl, rfl⟩ := hnone
    rw [hops.save, if_pos ⟨rfl, rfl⟩, List.append_nil]
    exact h
  · have hstate := (h.entries hes hP).hardState
      (by rw [Image.puts_entryRecords_snapshot]; exact hst) hP'
    rw [hops.save, if_neg hnone, ← List.append_assoc, ← List.append_assoc]
    by_cases hsync : es ≠ [] ∨ st.vote ≠ prev.vote ∨ st.term ≠ prev.term
    · rw [if_pos hsync]
      exact hstate.sync hP'
    · rw [if_neg hsync, List.append_nil]
      exact hstate

/-- A snapshot of what the disk holds: its file first, then the marker. -/
theorem saveSnapshot (hops : ops.Lawful) (h : Leads P d ws im) {s : SnapMeta}
    (hlt : im.snapshot.index < s.index) (hterm : im.snapshot.term ≤ s.term)
    (hle : s.index ≤ im.state.commit) (hP : P (im.put (.snapshot s))) :
    Leads P d (ws ++ .file s :: ops.saveSnapshot s) (im.put (.snapshot s)) := by
  have hfile : s ∈ (d.writes (ws ++ [.file s])).files := by
    rw [Disk.writes_append]
    exact List.mem_append_right _ (List.mem_singleton.mpr rfl)
  have hmarker := (((h.file s).record (r := .snapshot s) ⟨hlt, hterm, hle, hfile⟩ hP).sync hP)
  rw [List.append_assoc, List.append_assoc] at hmarker
  rw [hops.saveSnapshot]
  exact hmarker

end Leads

section
variable {ops : WalOps α} (hops : ops.Lawful) {d : Disk α} {im : Image α}
include hops

/-- The records of a `Save` whose hard state is not empty. -/
theorem save_writes (d : Disk α) (prev : HardState) {st : HardState} (hst : st ≠ {}) (first : ℕ)
    (es : List α) : (d.writes (ops.save prev st first es)).wal =
      d.wal ++ (entryRecords first es ++ [.state st]) ∧
    (d.writes (ops.save prev st first es)).files = d.files := by
  rw [hops.save, if_neg (fun h => hst h.1), if_neg hst, Disk.writes_append, Disk.writes_append,
    Disk.writes_records]
  split_ifs
  · simp [Disk.writes, Disk.write]
  · simp [Disk.writes, Disk.write]

/-- What `Save` does not sync is a commit index at most. -/
theorem Survives.save (hd : Survives d im.Same) {prev st : HardState} {first : ℕ} {es : List α}
    (hholds : Holds (d.writes (ops.save prev st first es)).wal
      (d.writes (ops.save prev st first es)).files (im.saved st first es))
    (hprev : st ≠ {} → st.term = prev.term → st.vote = prev.vote →
      st.term = im.state.term ∧ st.vote = im.state.vote ∧ im.state.commit ≤ st.commit) :
    Survives (d.writes (ops.save prev st first es)) (im.saved st first es).Same := by
  by_cases hsync : es ≠ [] ∨ st.vote ≠ prev.vote ∨ st.term ≠ prev.term
  · by_cases hnone : st = {} ∧ es = []
    · rw [hops.save, if_pos hnone, Image.saved, if_pos hnone.1, hnone.2]
      exact hd
    · rw [hops.save, if_neg hnone, if_pos hsync, Disk.writes_append] at hholds ⊢
      exact .sync hholds (.refl _)
  · push Not at hsync
    obtain ⟨rfl, hvote, hterm⟩ := hsync
    by_cases hst : st = {}
    · rw [hops.save, if_pos ⟨hst, rfl⟩, Image.saved, if_pos hst]
      exact hd
    · obtain ⟨hterm', hvote', hcommit⟩ := hprev hst hterm hvote
      have hwrites : d.writes (ops.save prev st first []) = d.write (.record (.state st)) := by
        rw [hops.save, if_neg (fun h => hst h.1), if_neg hst, if_neg (by simp [hvote, hterm])]
        rfl
      rw [hwrites] at hholds ⊢
      rw [Image.saved, if_neg hst] at hholds ⊢
      exact (hd.mono fun im' h => ⟨h.snapshot, h.ents, h.term.trans hterm'.symm,
        h.vote.trans hvote'.symm, h.commit_le.trans hcommit⟩).record hholds (.refl _)

/-- A snapshot from another node. The entries after it and the hard state are saved before it, and
only the marker makes them readable. -/
theorem Holds.install (h : Holds d.wal d.files im) {s : SnapMeta}
    (hlt : im.snapshot.index < s.index) (hterm : im.snapshot.term ≤ s.term) (prev : HardState)
    {st : HardState} (hst : st ≠ {}) {es : List α} (hlow : s.index ≤ st.commit)
    (hhigh : st.commit ≤ s.index + es.length) :
    Holds (d.writes (ops.save prev st (s.index + 1) es ++ .file s :: ops.saveSnapshot s)).wal
      (d.writes (ops.save prev st (s.index + 1) es ++ .file s :: ops.saveSnapshot s)).files
      ⟨s, es, st⟩ := by
  obtain ⟨hwal, hfiles⟩ := save_writes hops d prev hst (s.index + 1) es
  obtain ⟨ents, hents, hlead⟩ := h.ents
  obtain ⟨ents', hents', -⟩ := entsAfter_drop (Nat.le_of_lt hlt) hents
  have hread := entsAfter_entryRecords es hents' (Nat.lt_succ_self s.index) (by omega)
  have hmarker := (h.more_files (List.prefix_append _ [s])).marker hlt hterm
    (List.mem_append_right _ (List.mem_singleton.mpr rfl))
    (entryRecords (s.index + 1) es ++ [.state st]) (by simp) ⟨s, es, st⟩ rfl
    ⟨_, by rw [← List.append_assoc, entsAfter_state]; exact hread, by split_ifs with h <;> simp [h]⟩
    (by rw [← List.append_assoc, lastState_concat]) hlow hhigh
  rw [Disk.writes_append]
  simp only [hops.saveSnapshot, Disk.writes, List.foldl_cons, List.foldl_nil, Disk.write]
  rw [← Disk.writes, hwal, hfiles]
  exact hmarker

end

end Ecos.Etcd
