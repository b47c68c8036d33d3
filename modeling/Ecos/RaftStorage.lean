import Ecos.Etcd.Reference
import Ecos.RaftCompaction

namespace Ecos.Raft
open Go Logic Etcd

structure LogEntry where
  term : ℕ
  type : EntryType
  data : Bytes
  deriving DecidableEq, Repr

/-- What `raft.MemoryStorage` has: the name of its snapshot, index and term of the dummy entry
`ents[0]`, and the entries after it. -/
structure LogStorage where
  snapshot : SnapMeta := {}
  dummy : SnapMeta := {}
  ents : List LogEntry := []
  deriving DecidableEq, Repr

namespace LogStorage

def lastIndex (ms : LogStorage) : ℕ := ms.dummy.index + ms.ents.length

/-- The term of `ents[i - offset]`. -/
def termAt (ms : LogStorage) (i : ℕ) : ℕ :=
  if i = ms.dummy.index then ms.dummy.term
  else (ms.ents[i - ms.dummy.index - 1]?.map LogEntry.term).getD 0

end LogStorage

/-- What a raft node uses of the package `raft`. -/
structure StorageOps where
  newMemoryStorage : LogStorage
  createSnapshot : LogStorage → ℕ → Except Fault LogStorage
  compact : LogStorage → ℕ → Except Fault LogStorage
  applySnapshot : LogStorage → SnapMeta → Except Fault LogStorage
  /-- `Append` of entries from an index on -/
  append : LogStorage → ℕ → List LogEntry → Except Fault LogStorage
  /-- whether `StartNode` takes the storage with its hard state, and does not panic -/
  startNode : LogStorage → HardState → Bool

/-- What is assumed of the package. -/
structure StorageOps.Lawful (ops : StorageOps) : Prop where
  newMemoryStorage : ops.newMemoryStorage = {}
  createSnapshot : ∀ ms i ms', ops.createSnapshot ms i = .ok ms' →
    ms' = { ms with snapshot := ⟨i, ms.termAt i⟩ } ∧ ms.snapshot.index < i
  /-- a compaction moves the dummy entry -/
  compact : ∀ ms i ms', ops.compact ms i = .ok ms' →
    ms' = { ms with dummy := ⟨i, ms.termAt i⟩, ents := ms.ents.drop (i - ms.dummy.index) } ∧
      ms.dummy.index < i
  /-- a snapshot replaces the log -/
  applySnapshot : ∀ ms s, ms.snapshot.index < s.index → ops.applySnapshot ms s = .ok ⟨s, s, []⟩
  applySnapshot_old : ∀ ms s, s.index ≤ ms.snapshot.index → ∃ f, ops.applySnapshot ms s = .error f
  append_nil : ∀ ms first, ops.append ms first [] = .ok ms
  /-- entries that leave no gap replace those from their first index on -/
  append : ∀ ms first es, es ≠ [] → ms.dummy.index < first → first ≤ ms.lastIndex + 1 →
    ops.append ms first es =
      .ok { ms with ents := ms.ents.take (first - ms.dummy.index - 1) ++ es }
  /-- a commit index has to lie in the log -/
  startNode : ∀ ms st, ops.startNode ms st = true ↔
    st = {} ∨ ms.dummy.index ≤ st.commit ∧ st.commit ≤ ms.lastIndex

structure Library where
  wal : WalOps LogEntry
  storage : StorageOps

structure Library.Lawful (lib : Library) : Prop where
  wal : lib.wal.Lawful
  storage : lib.storage.Lawful

namespace LogStorage

def createSnapshot (ms : LogStorage) (i : ℕ) : Except Fault LogStorage :=
  if i ≤ ms.snapshot.index then .error .snapOutOfDate
  else if i > ms.lastIndex then .error .outOfBound
  else .ok { ms with snapshot := ⟨i, ms.termAt i⟩ }

def compact (ms : LogStorage) (i : ℕ) : Except Fault LogStorage :=
  if i ≤ ms.dummy.index then .error .compacted
  else if i > ms.lastIndex then .error .outOfBound
  else .ok { ms with dummy := ⟨i, ms.termAt i⟩, ents := ms.ents.drop (i - ms.dummy.index) }

def applySnapshot (ms : LogStorage) (s : SnapMeta) : Except Fault LogStorage :=
  if s.index ≤ ms.snapshot.index then .error .snapOutOfDate else .ok ⟨s, s, []⟩

def append (ms : LogStorage) (first : ℕ) (es : List LogEntry) : Except Fault LogStorage :=
  let firstIndex := ms.dummy.index + 1
  if es = [] ∨ first + es.length - 1 < firstIndex then .ok ms
  else
    let dropped := firstIndex - first
    let offset := first + dropped - ms.dummy.index
    if ms.ents.length + 1 ≥ offset then
      .ok { ms with ents := ms.ents.take (offset - 1) ++ es.drop dropped }
    else .error .missingEntry

end LogStorage

/-- Packages that do what is assumed of them. -/
def reference : Library where
  wal := Etcd.reference
  storage :=
    { newMemoryStorage := {}
      createSnapshot := LogStorage.createSnapshot
      compact := LogStorage.compact
      applySnapshot := LogStorage.applySnapshot
      append := LogStorage.append
      startNode ms st := st = {} ∨ ms.dummy.index ≤ st.commit ∧ st.commit ≤ ms.lastIndex }

theorem lawful_reference : reference.Lawful where
  wal := Etcd.lawful_reference
  storage :=
    { newMemoryStorage := rfl
      createSnapshot := by
        intro ms i ms' h
        dsimp only [reference, LogStorage.createSnapshot] at h
        split_ifs at h with hlow
        cases h
        exact ⟨rfl, Nat.not_le.mp hlow⟩
      compact := by
        intro ms i ms' h
        dsimp only [reference, LogStorage.compact] at h
        split_ifs at h with hlow
        cases h
        exact ⟨rfl, Nat.not_le.mp hlow⟩
      applySnapshot _ _ h := if_neg (Nat.not_le.mpr h)
      applySnapshot_old _ _ h := ⟨_, if_pos h⟩
      append_nil ms first := by simp [reference, LogStorage.append]
      append := by
        intro ms first es hnil hlow hgap
        have hpos := List.length_pos_iff.mpr hnil
        unfold LogStorage.lastIndex at hgap
        have hdropped : ms.dummy.index + 1 - first = 0 := by omega
        simp only [reference, LogStorage.append, hdropped, Nat.add_zero, List.drop_zero]
        rw [if_neg (by simp only [hnil, false_or]; omega), if_pos (by omega)]
      startNode _ _ := decide_eq_true_iff }

end Ecos.Raft
