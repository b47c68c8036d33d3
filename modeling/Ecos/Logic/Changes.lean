import Mathlib.Data.Finset.Card
import Mathlib.Data.Finset.SDiff
import Mathlib.Data.List.Chain
import Mathlib.Tactic

namespace Ecos.Logic

inductive Change (α : Type*) where
  | add (a : α)
  | remove (a : α)
  deriving DecidableEq, Repr

variable {α : Type*} [DecidableEq α] {s t : Finset α} {a : α}

/-- One member is new in `t`. -/
def Adds (s t : Finset α) : Prop := ∃ a, a ∉ s ∧ t = insert a s

/-- One member of `s` is gone. -/
def Removes (s t : Finset α) : Prop := ∃ a ∈ s, t = s.erase a

def OneApart (s t : Finset α) : Prop := Adds s t ∨ Removes s t

def Majority (s quorum : Finset α) : Prop := quorum ⊆ s ∧ s.card < 2 * quorum.card

/-- Majorities of a set and of the set with a further member meet. -/
theorem majorities_meet_insert {p q : Finset α} (ha : a ∉ s) (hp : Majority s p)
    (hq : Majority (insert a s) q) : (p ∩ q).Nonempty := by
  have hunion : (p ∪ q).card ≤ s.card + 1 := by
    rw [← Finset.card_insert_of_notMem ha]
    exact Finset.card_le_card
      (Finset.union_subset (hp.1.trans (Finset.subset_insert a s)) hq.1)
  have hboth := Finset.card_union_add_card_inter p q
  have hps := hp.2
  have hqs := hq.2
  rw [Finset.card_insert_of_notMem ha] at hqs
  exact Finset.card_pos.mp (by omega)

theorem OneApart.majorities_meet {p q : Finset α} (h : OneApart s t) (hp : Majority s p)
    (hq : Majority t q) : (p ∩ q).Nonempty := by
  rcases h with ⟨a, ha, rfl⟩ | ⟨a, ha, rfl⟩
  · exact majorities_meet_insert ha hp hq
  · rw [← Finset.insert_erase ha] at hp
    rw [Finset.inter_comm]
    exact majorities_meet_insert (Finset.notMem_erase a s) hq hp

namespace Change

def apply (s : Finset α) : Change α → Finset α
  | add a => insert a s
  | remove a => s.erase a

def Effective (s : Finset α) : Change α → Prop
  | add a => a ∉ s
  | remove a => a ∈ s

def result (s : Finset α) (cs : List (Change α)) : Finset α := cs.foldl apply s

def visited : Finset α → List (Change α) → List (Finset α)
  | _, [] => []
  | s, c :: cs => c.apply s :: visited (c.apply s) cs

def AllEffective : Finset α → List (Change α) → Prop
  | _, [] => True
  | s, c :: cs => c.Effective s ∧ AllEffective (c.apply s) cs

theorem visited_append (s : Finset α) (cs ds : List (Change α)) :
    visited s (cs ++ ds) = visited s cs ++ visited (result s cs) ds := by
  induction cs generalizing s with
  | nil => rfl
  | cons c cs ih =>
    rw [List.cons_append, visited, ih]
    rfl

theorem allEffective_append (s : Finset α) (cs ds : List (Change α)) :
    AllEffective s (cs ++ ds) ↔ AllEffective s cs ∧ AllEffective (result s cs) ds := by
  induction cs generalizing s with
  | nil => simp [AllEffective, result]
  | cons c cs ih =>
    rw [List.cons_append, AllEffective, ih, AllEffective, and_assoc]
    rfl

theorem getLastD_visited (s : Finset α) (cs : List (Change α)) :
    (visited s cs).getLastD s = result s cs := by
  induction cs generalizing s with
  | nil => rfl
  | cons c cs ih =>
    rw [visited, List.getLastD_cons, ih]
    rfl

/-- Sets that a list of effective changes passes are related as its changes relate them. -/
theorem isChain_visited {R : Finset α → Finset α → Prop} {cs : List (Change α)}
    (hR : ∀ c ∈ cs, ∀ s, c.Effective s → R s (c.apply s)) (hcs : AllEffective s cs) :
    (s :: visited s cs).IsChain R := by
  induction cs generalizing s with
  | nil => exact List.isChain_singleton s
  | cons c cs ih =>
    refine List.isChain_cons_cons.mpr ⟨hR c List.mem_cons_self s hcs.1, ?_⟩
    exact ih (fun d hd => hR d (List.mem_cons_of_mem c hd)) hcs.2

theorem oneApart (c : Change α) (h : c.Effective s) : OneApart s (c.apply s) := by
  cases c with
  | add a => exact Or.inl ⟨a, h, rfl⟩
  | remove a => exact Or.inr ⟨a, h, rfl⟩

/-- A member stays as long as it is not removed. -/
theorem mem_of_mem_visited {cs : List (Change α)} (hcs : remove a ∉ cs) (ha : a ∈ s)
    (ht : t ∈ visited s cs) : a ∈ t := by
  induction cs generalizing s with
  | nil => simp [visited] at ht
  | cons c cs ih =>
    obtain ⟨hc, hcs⟩ := not_or.mp (mt List.mem_cons.mpr hcs)
    have hkeep : a ∈ c.apply s := by
      cases c with
      | add b => exact Finset.mem_insert_of_mem ha
      | remove b =>
        refine Finset.mem_erase.mpr ⟨?_, ha⟩
        rintro rfl
        exact hc rfl
    rcases List.mem_cons.mp ht with rfl | ht
    · exact hkeep
    · exact ih hcs hkeep ht

theorem result_add (s : Finset α) (as : List α) : result s (as.map add) = s ∪ as.toFinset := by
  induction as generalizing s with
  | nil => simp [result]
  | cons a as ih =>
    calc result s ((a :: as).map add) = result (insert a s) (as.map add) := rfl
      _ = insert a s ∪ as.toFinset := ih _
      _ = s ∪ (a :: as).toFinset := by
        rw [List.toFinset_cons, Finset.insert_union, Finset.union_insert]

theorem result_remove (s : Finset α) (as : List α) :
    result s (as.map remove) = s \ as.toFinset := by
  induction as generalizing s with
  | nil => simp [result]
  | cons a as ih =>
    calc result s ((a :: as).map remove) = result (s.erase a) (as.map remove) := rfl
      _ = s.erase a \ as.toFinset := ih _
      _ = s \ (a :: as).toFinset := by
        rw [List.toFinset_cons, Finset.sdiff_insert, Finset.erase_sdiff_comm]

theorem allEffective_add {as : List α} (hnodup : as.Nodup) (has : ∀ a ∈ as, a ∉ s) :
    AllEffective s (as.map add) := by
  induction as generalizing s with
  | nil => trivial
  | cons a as ih =>
    obtain ⟨hmem, hnodup⟩ := List.nodup_cons.mp hnodup
    refine ⟨has a List.mem_cons_self, ih hnodup fun b hb hin => ?_⟩
    rcases Finset.mem_insert.mp hin with rfl | hin
    · exact hmem hb
    · exact has b (List.mem_cons_of_mem a hb) hin

theorem allEffective_remove {as : List α} (hnodup : as.Nodup) (has : ∀ a ∈ as, a ∈ s) :
    AllEffective s (as.map remove) := by
  induction as generalizing s with
  | nil => trivial
  | cons a as ih =>
    obtain ⟨hmem, hnodup⟩ := List.nodup_cons.mp hnodup
    refine ⟨has a List.mem_cons_self, ih hnodup fun b hb => ?_⟩
    refine Finset.mem_erase.mpr ⟨?_, has b (List.mem_cons_of_mem a hb)⟩
    rintro rfl
    exact hmem hb

end Change

end Ecos.Logic
