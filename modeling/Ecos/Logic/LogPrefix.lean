import Mathlib.Data.List.Basic
import Mathlib.Tactic

namespace Ecos.Logic

variable {σ ω : Type*} {apply : σ → ω → σ} {init : σ} {log : List ω} {p : ℕ}

/-- The state after the first `p` entries of the log. -/
def stateAt (apply : σ → ω → σ) (init : σ) (log : List ω) (p : ℕ) : σ :=
  (log.take p).foldl apply init

theorem stateAt_zero : stateAt apply init log 0 = init := rfl

theorem stateAt_succ {e : ω} (h : log[p]? = some e) :
    stateAt apply init log (p + 1) = apply (stateAt apply init log p) e := by
  rw [stateAt, List.take_add_one, h, List.foldl_append]
  rfl

/-- What is added to the log changes nothing for those who have not come to it. -/
theorem stateAt_append (h : p ≤ log.length) (more : List ω) :
    stateAt apply init (log ++ more) p = stateAt apply init log p := by
  rw [stateAt, List.take_append_of_le_length h]
  rfl

theorem mem_take_append {e : ω} (more : List ω) (h : e ∈ log.take p) :
    e ∈ (log ++ more).take p := by
  rw [List.take_append]
  exact List.mem_append_left _ h

theorem mem_take_of_le {e : ω} {q : ℕ} (hpq : p ≤ q) (h : e ∈ log.take p) : e ∈ log.take q :=
  (List.take_prefix_take_left hpq).subset h

variable [DecidableEq ω]

theorem idxOf_lt_of_mem_take {e : ω} (h : e ∈ log.take p) : log.idxOf e < p := by
  have hlt := List.idxOf_lt_length_of_mem h
  rw [List.length_take] at hlt
  have heq : (log.take p ++ log.drop p).idxOf e = (log.take p).idxOf e :=
    List.idxOf_append_of_mem h
  rw [List.take_append_drop] at heq
  omega

theorem getElem?_idxOf_of_mem {e : ω} (h : e ∈ log) : log[log.idxOf e]? = some e := by
  have hlt := List.idxOf_lt_length_of_mem h
  rw [List.getElem?_eq_getElem hlt, List.getElem_idxOf]

end Ecos.Logic
