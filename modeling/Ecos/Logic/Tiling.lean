import Mathlib.Data.List.Chain
import Mathlib.Tactic

namespace Ecos.Logic

variable {α β : Type*} [LinearOrder β]

/-- The intervals from `lo x` to `hi x` tile the one from `a` to `b`. -/
def Tiles (lo hi : α → β) : List α → β → β → Prop
  | [], a, b => a = b
  | x :: xs, a, b => lo x = a ∧ a ≤ hi x ∧ Tiles lo hi xs (hi x) b

variable {lo hi : α → β} {l : List α} {a b : β}

theorem Tiles.le (h : Tiles lo hi l a b) : a ≤ b := by
  induction l generalizing a with
  | nil => exact le_of_eq h
  | cons x xs ih => exact h.2.1.trans (ih h.2.2)

theorem Tiles.le_lo (h : Tiles lo hi l a b) {x : α} (hx : x ∈ l) : a ≤ lo x := by
  induction l generalizing a with
  | nil => cases hx
  | cons y ys ih =>
    rcases List.mem_cons.mp hx with rfl | hx
    · exact h.1.ge
    · exact h.2.1.trans (ih h.2.2 hx)

/-- No two intervals overlap. -/
theorem Tiles.pairwise (h : Tiles lo hi l a b) : l.Pairwise fun x y => hi x ≤ lo y := by
  induction l generalizing a with
  | nil => exact List.Pairwise.nil
  | cons x xs ih => exact List.Pairwise.cons (fun _ hy => h.2.2.le_lo hy) (ih h.2.2)

theorem Tiles.isChain (h : Tiles lo hi l a b) : l.IsChain fun x y => hi x = lo y := by
  induction l generalizing a with
  | nil => exact List.IsChain.nil
  | cons x xs ih =>
    cases xs with
    | nil => exact List.IsChain.singleton x
    | cons y ys => exact List.IsChain.cons_cons h.2.2.1.symm (ih h.2.2)

/-- Every point is in one of the intervals. -/
theorem Tiles.exists_mem_iff (h : Tiles lo hi l a b) (p : β) :
    (∃ x ∈ l, lo x ≤ p ∧ p < hi x) ↔ a ≤ p ∧ p < b := by
  induction l generalizing a with
  | nil =>
    obtain rfl : a = b := h
    simp only [List.not_mem_nil, false_and, exists_false, false_iff, not_and, not_lt]
    exact id
  | cons x xs ih =>
    obtain ⟨rfl, hx, hxs⟩ := h
    simp only [List.mem_cons, exists_eq_or_imp]
    rw [ih hxs]
    constructor
    · rintro (⟨hlo, hhi⟩ | ⟨hhi, hb⟩)
      · exact ⟨hlo, hhi.trans_le hxs.le⟩
      · exact ⟨hx.trans hhi, hb⟩
    · rintro ⟨hlo, hb⟩
      rcases lt_or_ge p (hi x) with hp | hp
      · exact .inl ⟨hlo, hp⟩
      · exact .inr ⟨hp, hb⟩

end Ecos.Logic
