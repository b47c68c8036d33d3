import Ecos.Rainbow.Handlers
import Mathlib.Data.List.AList

namespace Ecos.Rainbow
open Go

namespace CloudAlaya

/-- Where `syncLoop` is. -/
inductive Loop (α : Type) where
  | idle
  /-- for the response to its request -/
  | awaiting (m : α)
  /-- before it sends the meta on `syncEdgeChan` again -/
  | requeueing (m : α)
  /-- on the nil channel that a failed request leaves -/
  | stuck
  | panicked (m : α)
  | exited
  deriving DecidableEq, Repr

variable {α : Type}

namespace Loop

def held : Loop α → List α
  | awaiting m | requeueing m | panicked m => [m]
  | idle | stuck | exited => []

def inFlight : Loop α → List α
  | awaiting m => [m]
  | _ => []

def requeued : Loop α → List α
  | requeueing m => [m]
  | _ => []

/-- The end of `SendRequestDirect` in the loop. -/
def requested (m : α) : Option (Except Errno Unit) → Loop α
  | none => panicked m
  | some (.error _) => requeueing m
  | some (.ok ()) => awaiting m

theorem held_requested (m : α) (result : Option (Except Errno Unit)) :
    (requested m result).held = [m] := by
  rcases result with _ | _ | _ <;> rfl

end Loop

/-- The capacity of `syncEdgeChan`. -/
def syncEdgeCap : ℕ := 100

end CloudAlaya

/-- `CloudAlaya`, over metas with whatever a proof keeps beside them. -/
structure CloudAlaya (α : Type) where
  storage : AList (fun _ : Bytes => α) := ∅
  /-- calls of `RecordObjectMeta` that are about to send on `syncEdgeChan` -/
  sending : List α := []
  syncEdgeChan : List α := []
  loop : CloudAlaya.Loop α := .idle

namespace CloudAlaya

variable {α : Type} (a : CloudAlaya α)

/-- `RecordObjectMeta` up to the send. -/
def recordObjectMeta (withId : Bytes → α) (objId : Bytes) : CloudAlaya α :=
  let objId := cleanObjectKey objId
  { a with
    storage := a.storage.insert objId (withId objId)
    sending := a.sending ++ [withId objId] }

/-- The send, with which `RecordObjectMeta` returns. -/
def notify (j : ℕ) : Option (α × CloudAlaya α) := do
  let m ← a.sending[j]?
  if a.syncEdgeChan.length < syncEdgeCap then
    some (m, { a with sending := a.sending.eraseIdx j, syncEdgeChan := a.syncEdgeChan ++ [m] })
  else none

def sync (result : Option (Except Errno Unit)) : Option (α × CloudAlaya α) :=
  match a.loop, a.syncEdgeChan with
  | .idle, m :: rest => some (m, { a with syncEdgeChan := rest, loop := .requested m result })
  | _, _ => none

def requeue : Option (CloudAlaya α) :=
  match a.loop with
  | .requeueing m =>
    if a.syncEdgeChan.length < syncEdgeCap then
      -- the loop goes on to receive from the nil `respChan`
      some { a with syncEdgeChan := a.syncEdgeChan ++ [m], loop := .stuck }
    else none
  | _ => none

def answered : Option (α × CloudAlaya α) :=
  match a.loop with
  | .awaiting m => some (m, { a with loop := .idle })
  | _ => none

def done : Option (CloudAlaya α) :=
  match a.loop with
  | .idle => some { a with loop := .exited }
  | _ => none

variable {a : CloudAlaya α} {a' : CloudAlaya α} {m : α}

theorem notify_eq {j : ℕ} (h : a.notify j = some (m, a')) :
    a.sending[j]? = some m ∧ a' = { a with
      sending := a.sending.eraseIdx j, syncEdgeChan := a.syncEdgeChan ++ [m] } := by
  obtain ⟨m', hm, h⟩ := Option.bind_eq_some_iff.mp h
  split_ifs at h
  cases h
  exact ⟨hm, rfl⟩

theorem sync_eq {result : Option (Except Errno Unit)} (h : a.sync result = some (m, a')) :
    a.loop = .idle ∧ ∃ rest, a.syncEdgeChan = m :: rest ∧
      a' = { a with syncEdgeChan := rest, loop := .requested m result } := by
  unfold sync at h
  split at h
  · next m' rest hloop hchan =>
    cases h
    exact ⟨hloop, rest, hchan, rfl⟩
  · cases h

theorem requeue_eq (h : a.requeue = some a') :
    ∃ m, a.loop = .requeueing m ∧
      a' = { a with syncEdgeChan := a.syncEdgeChan ++ [m], loop := .stuck } := by
  unfold requeue at h
  split at h
  · next m hloop =>
    split_ifs at h
    cases h
    exact ⟨m, hloop, rfl⟩
  · cases h

theorem answered_eq (h : a.answered = some (m, a')) :
    a.loop = .awaiting m ∧ a' = { a with loop := .idle } := by
  unfold answered at h
  split at h
  · next m' hloop =>
    cases h
    exact ⟨hloop, rfl⟩
  · cases h

theorem done_eq (h : a.done = some a') : a.loop = .idle ∧ a' = { a with loop := .exited } := by
  unfold done at h
  split at h
  · next hloop =>
    cases h
    exact ⟨hloop, rfl⟩
  · cases h

end CloudAlaya

end Ecos.Rainbow
