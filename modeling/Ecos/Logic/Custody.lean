import Mathlib.Data.List.Perm.Basic
import Mathlib.Tactic

namespace Ecos.Logic

variable {α β : Type*} (f : α → List β) {l : List α} {i : ℕ} {a : α}

/-- What one holder has and what the others have. -/
theorem perm_flatMap_eraseIdx (h : l[i]? = some a) :
    (l.flatMap f).Perm (f a ++ (l.eraseIdx i).flatMap f) := by
  obtain ⟨hi, rfl⟩ := List.getElem?_eq_some_iff.mp h
  exact (List.getElem_cons_eraseIdx_perm hi).symm.flatMap_right f

/-- One holder is replaced by another. -/
theorem perm_flatMap_set (h : l[i]? = some a) (b : α) :
    ((l.set i b).flatMap f).Perm (f b ++ (l.eraseIdx i).flatMap f) := by
  obtain ⟨hi, -⟩ := List.getElem?_eq_some_iff.mp h
  have hb : (l.set i b)[i]? = some b := by rw [List.getElem?_set_self hi]
  rw [← List.eraseIdx_set_eq (l := l) (i := i) (a := b)]
  exact perm_flatMap_eraseIdx f hb

theorem flatMap_range_getElem? (l : List α) :
    (List.range l.length).flatMap (fun i => l[i]?.elim [] f) = l.flatMap f := by
  induction l with
  | nil => rfl
  | cons a l ih =>
    rw [List.length_cons, List.range_succ_eq_map, List.flatMap_cons, List.flatMap_map,
      List.flatMap_cons, ← ih]
    rfl

variable {f}

theorem existsUnique_holder (hnodup : (l.flatMap f).Nodup) (hl : ∀ a x, x ∈ f a → a ∈ l) {x : β}
    (hx : x ∈ l.flatMap f) : ∃! a, x ∈ f a := by
  obtain ⟨a, ha, hxa⟩ := List.mem_flatMap.mp hx
  refine ⟨a, hxa, fun b hxb => ?_⟩
  by_contra hne
  have : Std.Symm (Function.onFun List.Disjoint f) := ⟨fun _ _ h => h.symm⟩
  have hdisjoint := (List.nodup_flatMap.mp hnodup).2.forall (hl b x hxb) ha hne
  exact hdisjoint hxb hxa

end Ecos.Logic
