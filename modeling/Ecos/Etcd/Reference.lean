import Ecos.Etcd.Wal

namespace Ecos.Etcd

variable {α : Type}

/-- What `ReadAll` has collected. -/
structure Reading (α : Type) where
  state : HardState := {}
  ents : List α := []
  matched : Bool := false
  deriving DecidableEq, Repr

namespace Reading

def step (start : SnapMeta) (r : Reading α) : Record α → Except WalError (Reading α)
  | .entry index e =>
    if start.index < index then
      let up := index - start.index - 1
      if r.ents.length < up then .error .sliceOutOfRange
      else .ok { r with ents := r.ents.take up ++ [e] }
    else .ok r
  | .state st => .ok { r with state := st }
  | .snapshot s =>
    if s.index = start.index then
      if s.term ≠ start.term then .error .snapshotMismatch else .ok { r with matched := true }
    else .ok r

end Reading

/-- `ReadAll` of a log that was opened at a snapshot. -/
def readAll (start : SnapMeta) (records : List (Record α)) :
    Except WalError (HardState × List α) := do
  let r ← records.foldlM (Reading.step start) {}
  if r.matched then return (r.state, r.ents) else throw .snapshotNotFound

/-- `ValidSnapshotEntries` leaves out markers that are ahead of the commit index. -/
def validSnapshotEntries (records : List (Record α)) : List SnapMeta :=
  (snapshots records).filter fun s => s.index ≤ (lastState records).commit

/-- `LoadNewestAvailable`, which looks through the file names from the newest on. -/
def loadNewestAvailable (files walSnaps : List SnapMeta) : Option SnapMeta :=
  (files.insertionSort newer).find? fun s => s ∈ walSnaps

/-- `Save`, with the hard state that was saved last. Nothing is synced where only the commit index
has changed. -/
def save (prev st : HardState) (first : ℕ) (es : List α) : List (Write α) :=
  if st = {} ∧ es = [] then []
  else
    (entryRecords first es).map .record ++ (if st = {} then [] else [.record (.state st)]) ++
      if es ≠ [] ∨ st.vote ≠ prev.vote ∨ st.term ≠ prev.term then [.sync] else []

/-- `SaveSnapshot` of a log -/
def saveSnapshot (s : SnapMeta) : List (Write α) := [.record (.snapshot s), .sync]

/-- A reading that finds the marker of its snapshot, and no other one at its index. -/
theorem readAll_eq {start : SnapMeta} {rs : List (Record α)} {ents : List α}
    (hents : entsAfter start.index rs = some ents) (hmem : start ∈ snapshots rs)
    (huniq : ∀ s ∈ snapshots rs, s.index = start.index → s = start) :
    readAll start rs = .ok (lastState rs, ents) := by
  -- by induction on the records that have been read
  have hfold : ∀ rs : List (Record α), ∀ ents, entsAfter start.index rs = some ents →
      (∀ s ∈ snapshots rs, s.index = start.index → s = start) →
      rs.foldlM (Reading.step start) {} =
        .ok ⟨lastState rs, ents, decide (start ∈ snapshots rs)⟩ := by
    intro rs
    induction rs using List.reverseRecOn with
    | nil =>
      intro ents hents _
      cases hents
      rfl
    | append_singleton rs r ih =>
      intro ents hents huniq
      rw [entsAfter_concat, Option.bind_eq_some_iff] at hents
      obtain ⟨ents₀, hents₀, hr⟩ := hents
      have huniq₀ : ∀ s ∈ snapshots rs, s.index = start.index → s = start := fun s hs =>
        huniq s (by rw [snapshots_concat]; exact List.mem_append_left _ hs)
      rw [List.foldlM_append, ih ents₀ hents₀ huniq₀]
      cases r with
      | entry index e =>
        dsimp only at hr
        split_ifs at hr with hlt hlen
        · cases hr
          simp [Reading.step, hlt, hlen, bind, Except.bind, pure, Except.pure]
        · cases hr
          simp [Reading.step, hlt, bind, Except.bind, pure, Except.pure]
      | state st =>
        cases hr
        simp [Reading.step, bind, Except.bind, pure, Except.pure]
      | snapshot s =>
        cases hr
        by_cases hs : s.index = start.index
        · have heq : s = start := huniq s (by simp) hs
          simp [Reading.step, heq, bind, Except.bind, pure, Except.pure]
        · have hne : start ≠ s := fun heq => hs (heq ▸ rfl)
          simp [Reading.step, hs, hne, bind, Except.bind, pure, Except.pure]
  rw [readAll, hfold rs ents hents huniq]
  simp [hmem, bind, Except.bind, pure, Except.pure]

/-- Where the entries have a gap, nothing is read. -/
theorem readAll_gap {start : SnapMeta} {rs : List (Record α)}
    (h : entsAfter start.index rs = none) : ∃ e, readAll start rs = .error e := by
  have hfold : ∀ (rs : List (Record α)) (r : Reading α),
      rs.foldlM (Reading.step start) {} = .ok r → entsAfter start.index rs = some r.ents := by
    intro rs
    induction rs using List.reverseRecOn with
    | nil =>
      intro r hr
      cases hr
      rfl
    | append_singleton rs x ih =>
      intro r hr
      cases hr₀ : rs.foldlM (Reading.step start) {} with
      | error e =>
        rw [List.foldlM_append, hr₀] at hr
        cases hr
      | ok r₀ =>
        rw [List.foldlM_append, hr₀] at hr
        change (Reading.step start r₀ x >>= pure) = _ at hr
        rw [bind_pure] at hr
        rw [entsAfter_concat, ih r₀ hr₀, Option.bind_some]
        cases x with
        | entry index e =>
          dsimp only [Reading.step] at hr ⊢
          split_ifs at hr ⊢ <;> cases hr <;> rfl
        | state st =>
          cases hr
          rfl
        | snapshot s =>
          dsimp only [Reading.step] at hr ⊢
          split_ifs at hr <;> cases hr <;> rfl
  cases hr : rs.foldlM (Reading.step start) {} with
  | error e =>
    refine ⟨e, ?_⟩
    rw [readAll, hr]
    rfl
  | ok r =>
    rw [hfold rs r hr] at h
    cases h

instance : Std.Total newer where
  total a b := by
    unfold newer
    omega

instance : IsTrans SnapMeta newer where
  trans a b c := by
    unfold newer
    omega

/-- The first match in a sorted list comes before every other one. -/
theorem find?_pairwise {R : α → α → Prop} {p : α → Bool} {l : List α} {a b : α}
    (hl : l.Pairwise R) (ha : l.find? p = some a) (hb : b ∈ l) (hp : p b = true) :
    a = b ∨ R a b := by
  induction l with
  | nil => cases hb
  | cons x l ih =>
    rw [List.pairwise_cons] at hl
    rw [List.find?_cons] at ha
    split at ha
    · cases ha
      rcases List.mem_cons.mp hb with rfl | hmem
      · exact .inl rfl
      · exact .inr (hl.1 b hmem)
    · rename_i hx
      rcases List.mem_cons.mp hb with rfl | hmem
      · rw [hx] at hp
        cases hp
      · exact ih hl.2 ha hmem

theorem loadNewestAvailable_mem {files walSnaps : List SnapMeta} {s : SnapMeta}
    (h : loadNewestAvailable files walSnaps = some s) : s ∈ walSnaps := by
  simpa using List.find?_some h

theorem loadNewestAvailable_newer {files walSnaps : List SnapMeta} {s t : SnapMeta}
    (h : loadNewestAvailable files walSnaps = some s) (hfile : t ∈ files) (ht : t ∈ walSnaps) :
    s = t ∨ newer s t :=
  find?_pairwise (List.pairwise_insertionSort newer files) h
    ((List.mem_insertionSort newer).mpr hfile) (by simpa using ht)

theorem loadNewestAvailable_isSome {files walSnaps : List SnapMeta} {t : SnapMeta}
    (hfile : t ∈ files) (ht : t ∈ walSnaps) : (loadNewestAvailable files walSnaps).isSome := by
  rw [loadNewestAvailable, List.find?_isSome]
  exact ⟨t, (List.mem_insertionSort newer).mpr hfile, by simpa using ht⟩

/-- Packages that do what is assumed of them. -/
def reference : WalOps α where
  create := ⟨[.snapshot {}], 1, []⟩
  save := save
  saveSnapshot := saveSnapshot
  validSnapshotEntries := validSnapshotEntries
  loadNewestAvailable := loadNewestAvailable
  readAll := readAll

theorem lawful_reference : (reference : WalOps α).Lawful where
  create := rfl
  save _ _ _ _ := rfl
  saveSnapshot _ := rfl
  mem_valid rs s := by simp [reference, validSnapshotEntries]
  load_mem _ _ _ h := loadNewestAvailable_mem h
  load_newest _ _ _ _ h hfile ht := loadNewestAvailable_newer h hfile ht
  load_isSome _ _ _ hfile ht := loadNewestAvailable_isSome hfile ht
  readAll _ _ _ hents hmem huniq := readAll_eq hents hmem huniq
  readAll_gap _ _ h := readAll_gap h

end Ecos.Etcd
