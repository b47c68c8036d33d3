import Ecos.Logic.Machine

namespace Ecos

inductive ObjectEvent (K α : Type*) where
  | put (k : K) (content : List α)
  | deleted (k : K)
  /-- a copy takes the content of its source -/
  | taken (k : K)
  | copied (i : ℕ) (k : K)
  | opened (k : K)
  | missing (k : K)
  /-- a read of reader `j` with room for `n` elements -/
  | data (j n : ℕ) (out : List α) (eof : Bool)
  deriving DecidableEq, Repr

structure ObjectMap (K α : Type*) where
  objects : K → Option (List α) := fun _ => none
  /-- what the readers have still to deliver -/
  readers : List (List α) := []
  /-- what the copies under way will write -/
  copies : List (List α) := []

namespace ObjectMap
open Logic

variable {K α : Type*}

/-- What reader `j` delivers in a history. -/
def delivered (j : ℕ) : List (ObjectEvent K α) → List α
  | [] => []
  | .data i _ out _ :: es => (if i = j then out else []) ++ delivered j es
  | .put _ _ :: es | .deleted _ :: es | .taken _ :: es | .copied _ _ :: es | .opened _ :: es
  | .missing _ :: es => delivered j es

variable [DecidableEq K] [DecidableEq α]

/-- The map after an event; `none` where the event contradicts it. -/
def next (o : ObjectMap K α) : ObjectEvent K α → Option (ObjectMap K α)
  | .put k content => some { o with objects := Function.update o.objects k (some content) }
  | .deleted k => some { o with objects := Function.update o.objects k none }
  | .taken k => (o.objects k).map fun content => { o with copies := content :: o.copies }
  | .copied i k => o.copies[i]?.map fun content =>
    { o with
      objects := Function.update o.objects k (some content)
      copies := o.copies.eraseIdx i }
  | .opened k => (o.objects k).map fun content => { o with readers := o.readers ++ [content] }
  | .missing k => if (o.objects k).isNone then some o else none
  | .data j n out eof => o.readers[j]?.bind fun rest =>
    if out = rest.take n ∧ eof = decide (rest.length ≤ n) then
      some { o with readers := o.readers.set j (rest.drop n) }
    else none

omit [DecidableEq α] in
/-- The map after an event that is taken at its word: reads are believed, whatever they return. -/
def believe (o : ObjectMap K α) : ObjectEvent K α → ObjectMap K α
  | .put k content => { o with objects := Function.update o.objects k (some content) }
  | .deleted k => { o with objects := Function.update o.objects k none }
  | .taken k => { o with copies := (o.objects k).getD [] :: o.copies }
  | .copied i k =>
    { o with
      objects := Function.update o.objects k (o.copies[i]?)
      copies := o.copies.eraseIdx i }
  | .opened k => { o with readers := o.readers ++ [(o.objects k).getD []] }
  | .missing _ => o
  | .data j n _ _ => { o with readers := o.readers.set j ((o.readers[j]?.getD []).drop n) }

def replay (es : List (ObjectEvent K α)) : ObjectMap K α := es.foldl believe {}

variable {o o' : ObjectMap K α} {e : ObjectEvent K α} {es : List (ObjectEvent K α)} {j : ℕ}
  {rest : List α}

omit [DecidableEq α] in
theorem replay_append (es es' : List (ObjectEvent K α)) :
    replay (es ++ es') = es'.foldl believe (replay es) := List.foldl_append

theorem believe_of_next (h : o.next e = some o') : o.believe e = o' := by
  cases e with
  | put k content => exact Option.some.inj h
  | deleted k => exact Option.some.inj h
  | taken k =>
    obtain ⟨content, hk, rfl⟩ := Option.map_eq_some_iff.mp h
    rw [believe, hk, Option.getD_some]
  | copied i k =>
    obtain ⟨content, hi, rfl⟩ := Option.map_eq_some_iff.mp h
    rw [believe, hi]
  | opened k =>
    obtain ⟨content, hk, rfl⟩ := Option.map_eq_some_iff.mp h
    rw [believe, hk, Option.getD_some]
  | missing k =>
    simp only [next] at h
    split_ifs at h
    exact Option.some.inj h
  | data i n out eof =>
    obtain ⟨rest, hi, h⟩ := Option.bind_eq_some_iff.mp h
    split_ifs at h
    rw [believe, hi, Option.getD_some]
    exact Option.some.inj h

/-- Where a history is accepted, the map is the one that its events say. -/
theorem run_next_eq (h : run next o es = some o') : es.foldl believe o = o' := by
  induction es generalizing o with
  | nil => exact Option.some.inj h
  | cons e es ih =>
    rw [run_cons, Option.bind_eq_some_iff] at h
    obtain ⟨o₁, h₁, h⟩ := h
    rw [List.foldl_cons, believe_of_next h₁, ih h]

end ObjectMap
end Ecos
