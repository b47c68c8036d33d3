import Mathlib.Data.List.Basic
import Mathlib.Tactic
import Std.Data.ExtTreeMap

namespace Ecos.Logic
open Std

section Sorted

variable {α : Type*} {R : α → α → Prop} {below inside : α → Bool} {l : List α}

/-- Where what is inside comes first, a scan does not stop too early. -/
theorem takeWhile_eq_filter (hsorted : l.Pairwise R) (habove : ∀ a ∈ l, below a = false)
    (hconvex : ∀ a b, R a b → below a = false → inside b = true → inside a = true) :
    l.takeWhile inside = l.filter inside := by
  induction l with
  | nil => rfl
  | cons a l ih =>
    obtain ⟨hfirst, hsorted⟩ := List.pairwise_cons.mp hsorted
    have hrest := ih hsorted fun b hb => habove b (List.mem_cons_of_mem a hb)
    by_cases ha : inside a = true
    · rw [List.takeWhile_cons_of_pos ha, List.filter_cons_of_pos ha, hrest]
    · -- nothing that comes later is inside
      have hnone : l.filter inside = [] := by
        rw [List.filter_eq_nil_iff]
        intro b hb hbin
        exact ha (hconvex a b (hfirst b hb) (habove a List.mem_cons_self) hbin)
      rw [List.takeWhile_cons_of_neg ha, List.filter_cons_of_neg ha, hnone]

theorem takeWhile_dropWhile_eq_filter (hsorted : l.Pairwise R)
    (hdisjoint : ∀ a, below a = true → inside a = false)
    (hup : ∀ a b, R a b → below a = false → below b = false)
    (hconvex : ∀ a b, R a b → below a = false → inside b = true → inside a = true) :
    (l.dropWhile below).takeWhile inside = l.filter inside := by
  induction l with
  | nil => rfl
  | cons a l ih =>
    obtain ⟨hfirst, hrest⟩ := List.pairwise_cons.mp hsorted
    by_cases ha : below a = true
    · rw [List.dropWhile_cons_of_pos ha, List.filter_cons_of_neg (by simp [hdisjoint a ha]),
        ih hrest]
    · rw [List.dropWhile_cons_of_neg ha]
      have ha' := Bool.eq_false_iff.mpr ha
      refine takeWhile_eq_filter hsorted (fun b hb => ?_) hconvex
      rcases List.mem_cons.mp hb with rfl | hb
      · exact ha'
      · exact hup a b (hfirst b hb) ha'

end Sorted

variable {α ν : Type} [Ord α]

theorem compare_cons_cons (x y : α) (xs ys : List α) :
    compare (x :: xs) (y :: ys) = (compare x y).then (compare xs ys) := by
  simp [List.compare_eq_compareLex]

variable [LawfulEqOrd α]

/-- A list is not below what it extends. -/
theorem compare_extension_ne_lt {p k : List α} (h : p <+: k) : compare k p ≠ .lt := by
  induction p generalizing k with
  | nil => cases k <;> simp
  | cons x p ih =>
    obtain ⟨s, rfl⟩ := h
    have hself : compare x x = .eq := ReflCmp.compare_self
    rw [List.cons_append, compare_cons_cons, hself]
    exact ih (List.prefix_append p s)

/-- Between a list and one that extends it there are only lists that extend it. -/
theorem extends_of_between {p a b : List α} (hab : compare a b = .lt) (hpa : compare a p ≠ .lt)
    (hpb : p <+: b) : p <+: a := by
  induction p generalizing a b with
  | nil => exact List.nil_prefix
  | cons x p ih =>
    obtain ⟨s, rfl⟩ := hpb
    cases a with
    | nil => exact absurd (by simp) hpa
    | cons y a =>
      rw [List.cons_append, compare_cons_cons] at hab
      rw [compare_cons_cons] at hpa
      cases hxy : compare y x with
      | lt => simp [hxy] at hpa
      | gt => simp [hxy] at hab
      | eq =>
        rw [hxy] at hab hpa
        obtain rfl := LawfulEqCmp.eq_of_compare hxy
        exact List.prefix_cons_inj y |>.mpr (ih hab hpa (List.prefix_append p s))

section Map

variable [TransOrd α] [BEq α] [LawfulBEq α]

/-- The entries that an iterator finds from `Seek` on, while the keys extend the bound. -/
def scan (m : ExtTreeMap (List α) ν compare) (p : List α) : List (List α × ν) :=
  (m.toList.dropWhile fun e => compare e.1 p == .lt).takeWhile fun e => p.isPrefixOf e.1

theorem scan_eq_filter (m : ExtTreeMap (List α) ν compare) (p : List α) :
    scan m p = m.toList.filter fun e => p.isPrefixOf e.1 := by
  refine takeWhile_dropWhile_eq_filter ExtTreeMap.ordered_keys_toList (fun e he => ?_)
    (fun e e' hlt he => ?_) (fun e e' hlt he he' => ?_)
  · rw [beq_iff_eq] at he
    rw [Bool.eq_false_iff, ne_eq, List.isPrefixOf_iff_prefix]
    exact fun hext => compare_extension_ne_lt hext he
  · rw [beq_eq_false_iff_ne] at he ⊢
    exact fun hlt' => he (TransCmp.lt_trans hlt hlt')
  · rw [beq_eq_false_iff_ne] at he
    rw [List.isPrefixOf_iff_prefix] at he' ⊢
    exact extends_of_between hlt he he'

theorem mem_scan {m : ExtTreeMap (List α) ν compare} {p k : List α} {v : ν} :
    (k, v) ∈ scan m p ↔ m[k]? = some v ∧ p <+: k := by
  rw [scan_eq_filter, List.mem_filter, ExtTreeMap.mem_toList_iff_getElem?_eq_some,
    List.isPrefixOf_iff_prefix]

end Map

end Ecos.Logic
