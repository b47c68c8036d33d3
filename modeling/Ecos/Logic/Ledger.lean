import Mathlib.Data.List.Nodup
import Mathlib.Tactic

namespace Ecos.Logic

variable {ι : Type*}

structure Maker (ι : Type*) where
  /-- everything it has made -/
  made : List ι := []
  /-- what it is going to hand over -/
  live : List ι := []
  /-- what it still answers for -/
  held : List ι := []
  /-- what is on the way into the store -/
  pending : List ι := []
  /-- what it has handed over -/
  committed : Option (List ι) := none

structure Maker.WF (m : Maker ι) : Prop where
  nodup : m.live.Nodup
  live_held : ∀ x ∈ m.live, x ∈ m.held
  held_made : ∀ x ∈ m.held, x ∈ m.made
  pending_made : ∀ x ∈ m.pending, x ∈ m.made
  committed_nodup : ∀ L, m.committed = some L → L.Nodup
  committed_made : ∀ L, m.committed = some L → ∀ x ∈ L, x ∈ m.made
  held_committed : ∀ L, m.committed = some L → m.held = []

/-- A maker that has made nothing. -/
theorem Maker.wf_empty : ({} : Maker ι).WF :=
  ⟨List.nodup_nil, nofun, nofun, nofun, nofun, nofun, nofun⟩

structure Sweep (ι : Type*) where
  things : List ι
  next : ℕ := 0

def Sweep.rest (c : Sweep ι) : List ι := c.things.drop c.next

theorem Sweep.rest_eq_cons {c : Sweep ι} {x : ι} (h : c.things[c.next]? = some x) :
    c.rest = x :: c.things.drop (c.next + 1) := by
  obtain ⟨hlt, rfl⟩ := List.getElem?_eq_some_iff.mp h
  exact List.drop_eq_getElem_cons hlt

theorem Sweep.mem_things {c : Sweep ι} {x : ι} (h : x ∈ c.rest) : x ∈ c.things :=
  List.mem_of_mem_drop h

structure Ledger (ι : Type*) where
  makers : ℕ → Maker ι
  /-- the names that are taken -/
  generated : List ι
  store : List ι
  /-- what has been put into the store at some time -/
  created : List ι
  discarded : List ι
  lists : Set (List ι)
  sweeps : List (Sweep ι)

namespace Ledger

def Live (l : Ledger ι) (c : Sweep ι) : Prop := ∀ x ∈ c.rest, x ∈ l.store

def Covered (l : Ledger ι) (x : ι) : Prop := ∃ c ∈ l.sweeps, x ∈ c.rest ∧ l.Live c

def HandedOver (l : Ledger ι) (x : ι) : Prop := ∃ i L, (l.makers i).committed = some L ∧ x ∈ L

def Refused (l : Ledger ι) (i : ℕ) (x : ι) : Prop :=
  x ∈ (l.makers i).made ∧ x ∉ (l.makers i).live ∧ ∀ L, (l.makers i).committed = some L → x ∉ L

structure Sound (l : Ledger ι) : Prop where
  wf : ∀ i, (l.makers i).WF
  owner : ∀ {i j x}, x ∈ (l.makers i).made → x ∈ (l.makers j).made → i = j
  made_generated : ∀ {i x}, x ∈ (l.makers i).made → x ∈ l.generated
  created_generated : ∀ x ∈ l.created, x ∈ l.generated
  stored_created : ∀ x ∈ l.store, x ∈ l.created
  supplied : ∀ {i x}, x ∈ (l.makers i).live →
    x ∈ l.store ∨ (x ∈ (l.makers i).pending ∧ x ∉ l.created)
  awaited : ∀ {i x}, x ∈ (l.makers i).pending → x ∈ (l.makers i).held ∨ x ∈ l.created
  origin : ∀ L ∈ l.lists, ∃ i, (l.makers i).committed = some L
  sweep_origin : ∀ c ∈ l.sweeps, ∃ i, (l.makers i).committed = some c.things
  refused : ∀ x ∈ l.discarded, ∃ i, l.Refused i x
  behind : ∀ c ∈ l.sweeps, ∀ x ∈ c.things.take c.next, x ∉ l.store
  ahead : ∀ c ∈ l.sweeps, ∀ x, c.things[c.next]? = some x → x ∈ l.store → l.Live c
  intact : ∀ L ∈ l.lists, (∀ x ∈ L, x ∈ l.store) ∨ ∀ x ∈ L, x ∈ l.store → l.Covered x
  accounted : ∀ x ∈ l.store, (∃ L ∈ l.lists, x ∈ L) ∨ l.Covered x ∨
    (∃ i, x ∈ (l.makers i).held) ∨ x ∈ l.discarded

variable {l : Ledger ι}

def empty : Ledger ι := ⟨fun _ => {}, [], [], [], [], ∅, []⟩

theorem sound_empty : Sound (empty : Ledger ι) where
  wf _ := Maker.wf_empty
  owner hx := absurd hx List.not_mem_nil
  made_generated hx := absurd hx List.not_mem_nil
  created_generated _ hx := absurd hx List.not_mem_nil
  stored_created _ hx := absurd hx List.not_mem_nil
  supplied hx := absurd hx List.not_mem_nil
  awaited hx := absurd hx List.not_mem_nil
  origin _ hL := absurd hL (Set.notMem_empty _)
  sweep_origin _ hc := absurd hc List.not_mem_nil
  refused _ hx := absurd hx List.not_mem_nil
  behind _ hc := absurd hc List.not_mem_nil
  ahead _ hc := absurd hc List.not_mem_nil
  intact _ hL := absurd hL (Set.notMem_empty _)
  accounted _ hx := absurd hx List.not_mem_nil

namespace Sound

/-- Lists that were handed over are equal or disjoint. -/
theorem eq_of_committed (h : Sound l) {i j : ℕ} {L L' : List ι} {x : ι}
    (hL : (l.makers i).committed = some L) (hL' : (l.makers j).committed = some L') (hx : x ∈ L)
    (hx' : x ∈ L') : L = L' := by
  have hij := h.owner ((h.wf i).committed_made L hL x hx) ((h.wf j).committed_made L' hL' x hx')
  rw [hij, hL'] at hL
  exact (Option.some.inj hL).symm

theorem handedOver_sweep (h : Sound l) {c : Sweep ι} (hc : c ∈ l.sweeps) {x : ι}
    (hx : x ∈ c.things) : l.HandedOver x := by
  obtain ⟨i, hi⟩ := h.sweep_origin c hc
  exact ⟨i, _, hi, hx⟩

theorem handedOver_list (h : Sound l) {L : List ι} (hL : L ∈ l.lists) {x : ι} (hx : x ∈ L) :
    l.HandedOver x := by
  obtain ⟨i, hi⟩ := h.origin L hL
  exact ⟨i, L, hi, hx⟩

theorem not_handedOver_of_held (h : Sound l) {i : ℕ} {x : ι} (hx : x ∈ (l.makers i).held) :
    ¬l.HandedOver x := by
  rintro ⟨j, L, hL, hxL⟩
  have hij := h.owner ((h.wf i).held_made x hx) ((h.wf j).committed_made L hL x hxL)
  rw [hij, (h.wf j).held_committed L hL] at hx
  exact List.not_mem_nil hx

theorem not_handedOver_of_refused (h : Sound l) {i : ℕ} {x : ι} (hx : l.Refused i x) :
    ¬l.HandedOver x := by
  rintro ⟨j, L, hL, hxL⟩
  have hij := h.owner hx.1 ((h.wf j).committed_made L hL x hxL)
  exact hx.2.2 L (hij ▸ hL) hxL

end Sound

def withStore (l : Ledger ι) (store created : List ι) : Ledger ι := { l with store, created }

section Frame
variable {store created : List ι}

theorem live_withStore (h : Sound l) (hsame : ∀ x, l.HandedOver x → (x ∈ store ↔ x ∈ l.store))
    {c : Sweep ι} (hc : c ∈ l.sweeps) : (l.withStore store created).Live c ↔ l.Live c :=
  forall₂_congr fun x hx => hsame x (h.handedOver_sweep hc (Sweep.mem_things hx))

theorem covered_withStore (h : Sound l) (hsame : ∀ x, l.HandedOver x → (x ∈ store ↔ x ∈ l.store))
    (x : ι) : (l.withStore store created).Covered x ↔ l.Covered x :=
  exists_congr fun _ => and_congr_right fun hc => and_congr_right fun _ =>
    live_withStore h hsame hc

/-- A store that has the same of what was handed over. -/
theorem Sound.withStore (h : Sound l)
    (hsame : ∀ x, l.HandedOver x → (x ∈ store ↔ x ∈ l.store))
    (hcreated : ∀ x ∈ created, x ∈ l.generated) (hstored : ∀ x ∈ store, x ∈ created)
    (hsupplied : ∀ {i x}, x ∈ (l.makers i).live →
      x ∈ store ∨ (x ∈ (l.makers i).pending ∧ x ∉ created))
    (hawaited : ∀ x ∈ l.created, x ∈ created)
    (hnew : ∀ x ∈ store, x ∈ l.store ∨ ∃ i, x ∈ (l.makers i).held) :
    Sound (l.withStore store created) where
  wf := h.wf
  owner := h.owner
  made_generated := h.made_generated
  created_generated := hcreated
  stored_created := hstored
  supplied := hsupplied
  awaited hx := (h.awaited hx).imp_right (hawaited _)
  origin := h.origin
  sweep_origin := h.sweep_origin
  refused := h.refused
  behind c hc x hx := by
    change x ∉ store
    rw [hsame x (h.handedOver_sweep hc (List.mem_of_mem_take hx))]
    exact h.behind c hc x hx
  ahead c hc x hx hxs := by
    rw [live_withStore h hsame hc]
    have hthings : x ∈ c.things := List.mem_of_getElem? hx
    exact h.ahead c hc x hx ((hsame x (h.handedOver_sweep hc hthings)).mp hxs)
  intact L hL := by
    have hiff : ∀ x ∈ L, (x ∈ store ↔ x ∈ l.store) :=
      fun x hx => hsame x (h.handedOver_list hL hx)
    rcases h.intact L hL with hall | hcovered
    · exact .inl fun x hx => (hiff x hx).mpr (hall x hx)
    · exact .inr fun x hx hxs =>
        (covered_withStore h hsame x).mpr (hcovered x hx ((hiff x hx).mp hxs))
  accounted x hx := by
    rcases hnew x hx with hold | hheld
    · rw [covered_withStore h hsame]
      exact h.accounted x hold
    · exact .inr (.inr (.inl hheld))

end Frame

/-- A thing arrives in the store. -/
theorem Sound.arrive (h : Sound l) {i : ℕ} {x : ι} (hx : x ∈ (l.makers i).pending)
    (hnew : x ∉ l.created) : Sound (l.withStore (x :: l.store) (x :: l.created)) := by
  have hheld : x ∈ (l.makers i).held := (h.awaited hx).resolve_right hnew
  refine h.withStore ?_ ?_ (List.cons_subset_cons x h.stored_created) ?_
    (fun y hy => List.mem_cons_of_mem x hy) ?_
  · intro y hy
    have hne : y ≠ x := by
      rintro rfl
      exact h.not_handedOver_of_held hheld hy
    rw [List.mem_cons, or_iff_right hne]
  · intro y hy
    rcases List.mem_cons.mp hy with rfl | hy
    · exact h.made_generated ((h.wf i).pending_made y hx)
    · exact h.created_generated y hy
  · intro j y hy
    by_cases hyx : y = x
    · exact .inl (hyx ▸ List.mem_cons_self)
    · rcases h.supplied hy with hys | ⟨hpending, hyc⟩
      · exact .inl (List.mem_cons_of_mem x hys)
      · exact .inr ⟨hpending, fun hmem => hyc ((List.mem_cons.mp hmem).resolve_left hyx)⟩
  · intro y hy
    rcases List.mem_cons.mp hy with rfl | hy
    · exact .inr ⟨i, hheld⟩
    · exact .inl hy

/-- What was discarded is removed from the store. -/
theorem Sound.remove [DecidableEq ι] (h : Sound l) {x : ι} (hx : x ∈ l.discarded) :
    Sound (l.withStore (l.store.filter (· ≠ x)) l.created) := by
  obtain ⟨i, hrefused⟩ := h.refused x hx
  have hmem : ∀ y, y ∈ l.store.filter (· ≠ x) ↔ y ∈ l.store ∧ y ≠ x := fun y => by simp
  refine h.withStore ?_ h.created_generated
    (fun y hy => h.stored_created y ((hmem y).mp hy).1) ?_ (fun y hy => hy) ?_
  · intro y hy
    have hne : y ≠ x := by
      rintro rfl
      exact h.not_handedOver_of_refused hrefused hy
    rw [hmem, and_iff_left hne]
  · intro j y hy
    have hne : y ≠ x := by
      rintro rfl
      have hij := h.owner hrefused.1 ((h.wf j).held_made y ((h.wf j).live_held y hy))
      exact hrefused.2.1 (hij ▸ hy)
    exact (h.supplied hy).imp_left fun hys => (hmem y).mpr ⟨hys, hne⟩
  · intro y hy
    exact .inl ((hmem y).mp hy).1

/-- What was discarded is forgotten once it is not in the store. -/
theorem Sound.forget (h : Sound l) (discarded : List ι) (hsub : ∀ x ∈ discarded, x ∈ l.discarded)
    (hkeep : ∀ x ∈ l.store, x ∈ l.discarded → x ∈ discarded) : Sound { l with discarded } :=
  { h with
    refused := fun x hx => h.refused x (hsub x hx)
    accounted := fun x hx =>
      (h.accounted x hx).imp_right (Or.imp_right (Or.imp_right (hkeep x hx))) }

/-- What a maker may do before it hands over: it makes new things and discards others. -/
structure Moves (l : Ledger ι) (m m' : Maker ι) (new gone : List ι) : Prop where
  wf : m'.WF
  open_before : m.committed = none
  open_after : m'.committed = none
  fresh : ∀ x ∈ new, x ∉ l.generated
  made : ∀ x, x ∈ m'.made ↔ x ∈ m.made ∨ x ∈ new
  live : ∀ x ∈ m'.live, x ∈ m.live ∨ (x ∈ new ∧ x ∈ m'.pending)
  arriving : ∀ x ∈ m.pending, x ∈ m'.pending ∨ x ∈ l.created
  awaited : ∀ x ∈ m'.pending, x ∈ m'.held ∨ x ∈ l.created
  held : ∀ x ∈ m.held, x ∈ m'.held ∨ x ∈ gone
  gone_made : ∀ x ∈ gone, x ∈ m.made
  gone_live : ∀ x ∈ gone, x ∉ m'.live

def moved (l : Ledger ι) (i : ℕ) (m' : Maker ι) (new gone : List ι) : Ledger ι :=
  { l with
    makers := Function.update l.makers i m'
    generated := new ++ l.generated
    discarded := gone ++ l.discarded }

theorem Sound.moved (h : Sound l) {i : ℕ} {m' : Maker ι} {new gone : List ι}
    (hm : l.Moves (l.makers i) m' new gone) : Sound (l.moved i m' new gone) := by
  have hself : (l.moved i m' new gone).makers i = m' := Function.update_self ..
  have hother : ∀ {j}, j ≠ i → (l.moved i m' new gone).makers j = l.makers j :=
    fun hj => Function.update_of_ne hj ..
  -- only open makers have changed, so the same lists are handed over
  have hcommitted : ∀ j, ((l.moved i m' new gone).makers j).committed = (l.makers j).committed := by
    intro j
    by_cases hj : j = i
    · rw [hj, hself, hm.open_after, hm.open_before]
    · rw [hother hj]
  have hmade : ∀ {j x}, x ∈ ((l.moved i m' new gone).makers j).made →
      x ∈ (l.makers j).made ∨ (j = i ∧ x ∈ new) := by
    intro j x hx
    by_cases hj : j = i
    · rw [hj, hself, hm.made] at hx
      exact hx.imp (fun hx => hj ▸ hx) fun hx => ⟨hj, hx⟩
    · rw [hother hj] at hx
      exact .inl hx
  have hfresh : ∀ {j x}, x ∈ new → x ∉ (l.makers j).made :=
    fun hx hmem => hm.fresh _ hx (h.made_generated hmem)
  refine
    { wf := ?_, owner := ?_, made_generated := ?_, created_generated := ?_,
      stored_created := h.stored_created, supplied := ?_, awaited := ?_, origin := ?_,
      sweep_origin := ?_, refused := ?_, behind := h.behind, ahead := h.ahead,
      intact := h.intact, accounted := ?_ }
  · intro j
    by_cases hj : j = i
    · rw [hj, hself]
      exact hm.wf
    · rw [hother hj]
      exact h.wf j
  · intro j k x hj hk
    rcases hmade hj with hj | ⟨rfl, hxj⟩
    · rcases hmade hk with hk | ⟨-, hxk⟩
      · exact h.owner hj hk
      · exact absurd hj (hfresh hxk)
    · rcases hmade hk with hk | ⟨rfl, -⟩
      · exact absurd hk (hfresh hxj)
      · rfl
  · intro j x hx
    rcases hmade hx with hx | ⟨-, hx⟩
    · exact List.mem_append_right new (h.made_generated hx)
    · exact List.mem_append_left _ hx
  · exact fun x hx => List.mem_append_right new (h.created_generated x hx)
  · intro j x hx
    by_cases hj : j = i
    · rw [hj, hself] at hx ⊢
      rcases hm.live x hx with hold | ⟨hnew, hpending⟩
      · refine (h.supplied hold).imp_right fun ⟨hpending, hx⟩ => ⟨?_, hx⟩
        exact (hm.arriving x hpending).resolve_right hx
      · exact .inr ⟨hpending, fun hc => hm.fresh x hnew (h.created_generated x hc)⟩
    · rw [hother hj] at hx ⊢
      exact h.supplied hx
  · intro j x hx
    by_cases hj : j = i
    · rw [hj, hself] at hx ⊢
      exact hm.awaited x hx
    · rw [hother hj] at hx ⊢
      exact h.awaited hx
  · intro L hL
    obtain ⟨j, hj⟩ := h.origin L hL
    exact ⟨j, (hcommitted j).trans hj⟩
  · intro c hc
    obtain ⟨j, hj⟩ := h.sweep_origin c hc
    exact ⟨j, (hcommitted j).trans hj⟩
  · intro x hx
    rcases List.mem_append.mp hx with hx | hx
    · refine ⟨i, ?_, ?_, ?_⟩
      · rw [hself, hm.made]
        exact .inl (hm.gone_made x hx)
      · rw [hself]
        exact hm.gone_live x hx
      · intro L hL
        rw [hself, hm.open_after] at hL
        cases hL
    · obtain ⟨j, hmade, hlive, hrefused⟩ := h.refused x hx
      refine ⟨j, ?_, ?_, fun L hL => hrefused L ((hcommitted j).symm.trans hL)⟩
      · by_cases hj : j = i
        · rw [hj, hself, hm.made]
          exact .inl (hj ▸ hmade)
        · rwa [hother hj]
      · by_cases hj : j = i
        · rw [hj, hself]
          intro hmem
          rcases hm.live x hmem with hold | ⟨hnew, -⟩
          · exact hlive (hj ▸ hold)
          · exact hfresh hnew hmade
        · rwa [hother hj]
  · intro x hx
    rcases h.accounted x hx with hlist | hcovered | ⟨j, hheld⟩ | hgone
    · exact .inl hlist
    · exact .inr (.inl hcovered)
    · by_cases hj : j = i
      · rcases hm.held x (hj ▸ hheld) with hheld | hgone
        · exact .inr (.inr (.inl ⟨i, by rw [hself]; exact hheld⟩))
        · exact .inr (.inr (.inr (List.mem_append_left _ hgone)))
      · exact .inr (.inr (.inl ⟨j, by rw [hother hj]; exact hheld⟩))
    · exact .inr (.inr (.inr (List.mem_append_right gone hgone)))

structure HandsOver (l : Ledger ι) (m m' : Maker ι) : Prop where
  open_before : m.committed = none
  stored : ∀ x ∈ m.live, x ∈ l.store
  held : ∀ x ∈ m.held, x ∈ m.live
  made : ∀ x, x ∈ m'.made ↔ x ∈ m.made
  pending : ∀ x ∈ m'.pending, x ∈ m.pending ∧ x ∈ l.created
  live_nil : m'.live = []
  held_nil : m'.held = []
  committed : m'.committed = some m.live

def handedOver (l : Ledger ι) (i : ℕ) (m' : Maker ι) : Ledger ι :=
  { l with
    makers := Function.update l.makers i m'
    lists := insert (l.makers i).live l.lists }

theorem Sound.handedOver (h : Sound l) {i : ℕ} {m' : Maker ι}
    (hm : l.HandsOver (l.makers i) m') : Sound (l.handedOver i m') := by
  have hself : (l.handedOver i m').makers i = m' := Function.update_self ..
  have hother : ∀ {j}, j ≠ i → (l.handedOver i m').makers j = l.makers j :=
    fun hj => Function.update_of_ne hj ..
  have hmade : ∀ {j x}, x ∈ ((l.handedOver i m').makers j).made ↔ x ∈ (l.makers j).made := by
    intro j x
    by_cases hj : j = i
    · rw [hj, hself, hm.made]
    · rw [hother hj]
  have hcommitted : ∀ {j L}, (l.makers j).committed = some L →
      ((l.handedOver i m').makers j).committed = some L := by
    intro j L hL
    have hj : j ≠ i := by
      rintro rfl
      rw [hm.open_before] at hL
      cases hL
    rw [hother hj, hL]
  have hwf := h.wf i
  refine
    { wf := ?_, owner := fun hj hk => h.owner (hmade.mp hj) (hmade.mp hk),
      made_generated := fun hx => h.made_generated (hmade.mp hx),
      created_generated := h.created_generated, stored_created := h.stored_created,
      supplied := ?_, awaited := ?_, origin := ?_, sweep_origin := ?_, refused := ?_,
      behind := h.behind, ahead := h.ahead, intact := ?_, accounted := ?_ }
  · intro j
    by_cases hj : j = i
    · rw [hj, hself]
      refine ⟨by rw [hm.live_nil]; exact List.nodup_nil, by simp [hm.live_nil],
        by simp [hm.held_nil], ?_, ?_, ?_, fun _ _ => hm.held_nil⟩
      · exact fun x hx => (hm.made x).mpr (hwf.pending_made x (hm.pending x hx).1)
      · intro L hL
        rw [hm.committed] at hL
        exact Option.some.inj hL ▸ hwf.nodup
      · intro L hL x hx
        rw [hm.committed] at hL
        rw [← Option.some.inj hL] at hx
        exact (hm.made x).mpr (hwf.held_made x (hwf.live_held x hx))
    · rw [hother hj]
      exact h.wf j
  · intro j x hx
    by_cases hj : j = i
    · rw [hj, hself, hm.live_nil] at hx
      cases hx
    · rw [hother hj] at hx ⊢
      exact h.supplied hx
  · intro j x hx
    by_cases hj : j = i
    · rw [hj, hself] at hx
      exact .inr (hm.pending x hx).2
    · rw [hother hj] at hx ⊢
      exact h.awaited hx
  · intro L hL
    rcases hL with rfl | hL
    · exact ⟨i, by rw [hself, hm.committed]⟩
    · obtain ⟨j, hj⟩ := h.origin L hL
      exact ⟨j, hcommitted hj⟩
  · intro c hc
    obtain ⟨j, hj⟩ := h.sweep_origin c hc
    exact ⟨j, hcommitted hj⟩
  · intro x hx
    obtain ⟨j, hxmade, hlive, hrefused⟩ := h.refused x hx
    refine ⟨j, hmade.mpr hxmade, ?_⟩
    by_cases hj : j = i
    · rw [hj, hself, hm.live_nil, hm.committed]
      refine ⟨List.not_mem_nil, fun L hL => ?_⟩
      rw [← Option.some.inj hL, ← hj]
      exact hlive
    · rw [hother hj]
      exact ⟨hlive, hrefused⟩
  · intro L hL
    rcases hL with rfl | hL
    · exact .inl hm.stored
    · exact h.intact L hL
  · intro x hx
    rcases h.accounted x hx with ⟨L, hL, hxL⟩ | hcovered | ⟨j, hheld⟩ | hgone
    · exact .inl ⟨L, .inr hL, hxL⟩
    · exact .inr (.inl hcovered)
    · by_cases hj : j = i
      · exact .inl ⟨_, .inl rfl, hm.held x (hj ▸ hheld)⟩
      · exact .inr (.inr (.inl ⟨j, by rw [hother hj]; exact hheld⟩))
    · exact .inr (.inr (.inr hgone))

/-- Lists are dropped. What they name is in another list or is going to be swept. -/
theorem Sound.relist (h : Sound l) (lists : Set (List ι)) (hsub : lists ⊆ l.lists)
    (hkeep : ∀ L ∈ l.lists, ∀ x ∈ L, x ∈ l.store → (∃ L' ∈ lists, x ∈ L') ∨ l.Covered x) :
    Sound { l with lists } :=
  { h with
    origin := fun L hL => h.origin L (hsub hL)
    intact := fun L hL => h.intact L (hsub hL)
    accounted := by
      intro x hx
      rcases h.accounted x hx with ⟨L, hL, hxL⟩ | hrest
      · exact (hkeep L hL x hxL hx).imp_right .inl
      · exact .inr hrest }

/-- A sweep at its start finds everything, or nothing that another sweep would not. -/
theorem Sound.live_of_head (h : Sound l) {L : List ι} (hL : L ∈ l.lists) {x : ι}
    (hx : L[0]? = some x) (hstored : x ∈ l.store) : ∀ y ∈ L, y ∈ l.store := by
  rcases h.intact L hL with hall | hcovered
  · exact hall
  · have hxL : x ∈ L := List.mem_of_getElem? hx
    obtain ⟨c, hc, hxc, hlive⟩ := hcovered x hxL hstored
    obtain ⟨i, hi⟩ := h.origin L hL
    obtain ⟨j, hj⟩ := h.sweep_origin c hc
    have hsame : L = c.things := h.eq_of_committed hi hj hxL (Sweep.mem_things hxc)
    -- the sweep that covers the first thing has not begun
    have hnext : c.next = 0 := by
      by_contra hne
      have htake : x ∈ c.things.take c.next := by
        rw [List.mem_take_iff_getElem]
        obtain ⟨hlt, heq⟩ := List.getElem?_eq_some_iff.mp hx
        rw [hsame] at hlt
        refine ⟨0, by omega, ?_⟩
        simpa only [hsame] using heq
      exact h.behind c hc x htake hstored
    intro y hy
    apply hlive y
    rw [Sweep.rest, hnext, List.drop_zero, ← hsame]
    exact hy

theorem covered_cons {c : Sweep ι} {x : ι} (h : l.Covered x) :
    Covered { l with sweeps := c :: l.sweeps } x := by
  obtain ⟨c', hc', hx, hlive⟩ := h
  exact ⟨c', List.mem_cons_of_mem c hc', hx, hlive⟩

/-- A sweep begins. -/
theorem Sound.sweep (h : Sound l) {L : List ι} (hL : L ∈ l.lists) :
    Sound { l with sweeps := ⟨L, 0⟩ :: l.sweeps } :=
  { h with
    sweep_origin := by
      intro c hc
      rcases List.mem_cons.mp hc with rfl | hc
      · exact h.origin L hL
      · exact h.sweep_origin c hc
    behind := by
      intro c hc
      rcases List.mem_cons.mp hc with rfl | hc
      · simp
      · exact h.behind c hc
    ahead := by
      intro c hc x hx hstored
      rcases List.mem_cons.mp hc with rfl | hc
      · exact h.live_of_head hL hx hstored
      · exact h.ahead c hc x hx hstored
    intact := fun L' hL' =>
      (h.intact L' hL').imp_right fun hcovered x hx hstored => covered_cons (hcovered x hx hstored)
    accounted := fun x hx =>
      (h.accounted x hx).imp_right (Or.imp_left covered_cons) }

/-- Everything that a list names is covered once the list is swept. -/
theorem Sound.covered_sweep (h : Sound l) {L : List ι} (hL : L ∈ l.lists) {x : ι} (hx : x ∈ L)
    (hstored : x ∈ l.store) : Covered { l with sweeps := ⟨L, 0⟩ :: l.sweeps } x := by
  rcases h.intact L hL with hall | hcovered
  · exact ⟨⟨L, 0⟩, List.mem_cons_self, hx, fun y hy => hall y hy⟩
  · exact covered_cons (hcovered x hx hstored)

/-- A sweep ends that has nothing to remove, or misses what it should remove next. -/
theorem Sound.stop (h : Sound l) {i : ℕ} {c : Sweep ι} (hc : l.sweeps[i]? = some c)
    (hend : ∀ x, c.things[c.next]? = some x → x ∉ l.store) :
    Sound { l with sweeps := l.sweeps.eraseIdx i } := by
  have hcovered : ∀ {x}, l.Covered x → Covered { l with sweeps := l.sweeps.eraseIdx i } x := by
    rintro x ⟨c', hc', hx, hlive⟩
    refine ⟨c', ?_, hx, hlive⟩
    obtain ⟨j, hj⟩ := List.mem_iff_getElem?.mp hc'
    have hji : j ≠ i := by
      rintro rfl
      rw [hc] at hj
      cases hj
      -- a sweep that covers something finds its next thing
      have hlt : c.next < c.things.length := by
        by_contra hge
        rw [Sweep.rest, List.drop_eq_nil_of_le (not_lt.mp hge)] at hx
        cases hx
      have hnext := List.getElem?_eq_getElem hlt
      apply hend _ hnext
      apply hlive
      rw [Sweep.rest_eq_cons hnext]
      exact List.mem_cons_self
    exact List.mem_eraseIdx_iff_getElem?.mpr ⟨j, hji, hj⟩
  exact
    { h with
      sweep_origin := fun c' hc' => h.sweep_origin c' (List.mem_of_mem_eraseIdx hc')
      behind := fun c' hc' => h.behind c' (List.mem_of_mem_eraseIdx hc')
      ahead := fun c' hc' => h.ahead c' (List.mem_of_mem_eraseIdx hc')
      intact := fun L hL => (h.intact L hL).imp_right fun hall x hx hxs => hcovered (hall x hx hxs)
      accounted := fun x hx => (h.accounted x hx).imp_right (Or.imp_left hcovered) }

def advanced [DecidableEq ι] (l : Ledger ι) (i : ℕ) (c : Sweep ι) (x : ι) : Ledger ι :=
  { l with
    store := l.store.filter (· ≠ x)
    sweeps := l.sweeps.set i { c with next := c.next + 1 } }

section Advance
variable [DecidableEq ι] {i : ℕ} {c : Sweep ι} {x : ι}

theorem mem_advanced {y : ι} : y ∈ (l.advanced i c x).store ↔ y ∈ l.store ∧ y ≠ x := by
  simp [advanced]

/-- The sweep finds everything that is left, as it has found this thing. -/
theorem Sound.live_next (h : Sound l) (hc : l.sweeps[i]? = some c)
    (hx : c.things[c.next]? = some x) (hstored : x ∈ l.store) :
    (l.advanced i c x).Live { c with next := c.next + 1 } := by
  have hmem : c ∈ l.sweeps := List.mem_of_getElem? hc
  obtain ⟨j, hj⟩ := h.sweep_origin c hmem
  have hnodup : c.rest.Nodup := ((h.wf j).committed_nodup _ hj).sublist (List.drop_sublist _ _)
  have hlive := h.ahead c hmem x hx hstored
  rw [Sweep.rest_eq_cons hx, List.nodup_cons] at hnodup
  intro y hy
  have hyx : y ≠ x := by
    rintro rfl
    exact hnodup.1 hy
  refine mem_advanced.mpr ⟨hlive y ?_, hyx⟩
  rw [Sweep.rest_eq_cons hx]
  exact List.mem_cons_of_mem x hy

/-- What is left of a list after a sweep of it has removed a thing is what that sweep removes. -/
theorem Sound.covered_advanced (h : Sound l) (hc : l.sweeps[i]? = some c)
    (hx : c.things[c.next]? = some x) (hstored : x ∈ l.store) {y : ι} (hy : y ∈ c.things)
    (hys : y ∈ (l.advanced i c x).store) : (l.advanced i c x).Covered y := by
  obtain ⟨hyl, hyx⟩ := mem_advanced.mp hys
  refine ⟨{ c with next := c.next + 1 }, List.mem_set (List.getElem?_eq_some_iff.mp hc).1 _, ?_,
    h.live_next hc hx hstored⟩
  have hrest : y ∈ c.rest := by
    rw [← List.take_append_drop c.next c.things] at hy
    exact (List.mem_append.mp hy).resolve_left fun hy =>
      h.behind c (List.mem_of_getElem? hc) y hy hyl
  rw [Sweep.rest_eq_cons hx] at hrest
  exact (List.mem_cons.mp hrest).resolve_left hyx

/-- Another sweep that covers something else goes on, unless it sweeps the same list. -/
theorem Sound.covered_of_covered (h : Sound l) (hc : l.sweeps[i]? = some c)
    (hx : c.things[c.next]? = some x) (hstored : x ∈ l.store) {y : ι} (hy : l.Covered y)
    (hys : y ∈ (l.advanced i c x).store) : (l.advanced i c x).Covered y := by
  obtain ⟨c', hc', hyc, hlive⟩ := hy
  by_cases hsame : x ∈ c'.things
  · obtain ⟨j, hj⟩ := h.sweep_origin c (List.mem_of_getElem? hc)
    obtain ⟨k, hk⟩ := h.sweep_origin c' hc'
    have heq : c'.things = c.things := h.eq_of_committed hk hj hsame (List.mem_of_getElem? hx)
    exact h.covered_advanced hc hx hstored (heq ▸ Sweep.mem_things hyc) hys
  · obtain ⟨j, hj⟩ := List.mem_iff_getElem?.mp hc'
    have hji : i ≠ j := by
      rintro rfl
      rw [hc] at hj
      cases hj
      exact hsame (List.mem_of_getElem? hx)
    refine ⟨c', List.mem_of_getElem? (i := j) ?_, hyc, ?_⟩
    · rw [advanced, List.getElem?_set_ne hji, hj]
    · intro z hz
      refine mem_advanced.mpr ⟨hlive z hz, ?_⟩
      rintro rfl
      exact hsame (Sweep.mem_things hz)

theorem Sound.ahead_advanced (h : Sound l) (hc : l.sweeps[i]? = some c)
    (hx : c.things[c.next]? = some x) (hstored : x ∈ l.store) {c' : Sweep ι}
    (hc' : c' ∈ l.sweeps) {y : ι} (hy : c'.things[c'.next]? = some y)
    (hys : y ∈ (l.advanced i c x).store) : (l.advanced i c x).Live c' := by
  obtain ⟨hyl, hyx⟩ := mem_advanced.mp hys
  have hlive := h.ahead c' hc' y hy hyl
  intro z hz
  refine mem_advanced.mpr ⟨hlive z hz, ?_⟩
  rintro rfl
  -- both sweep one list; the one that has gone further has removed what the other is at
  obtain ⟨j, hj⟩ := h.sweep_origin c (List.mem_of_getElem? hc)
  obtain ⟨k, hk⟩ := h.sweep_origin c' hc'
  have heq : c'.things = c.things :=
    h.eq_of_committed hk hj (Sweep.mem_things hz) (List.mem_of_getElem? hx)
  have hnodup := (h.wf j).committed_nodup _ hj
  rw [Sweep.rest, heq] at hz
  obtain ⟨n, hn⟩ := List.mem_iff_getElem?.mp hz
  rw [List.getElem?_drop] at hn
  obtain ⟨hlt, -⟩ := List.getElem?_eq_some_iff.mp hx
  have hindex : c.next = c'.next + n := (List.getElem?_inj hlt hnodup).mp (hx.trans hn.symm)
  rcases Nat.eq_zero_or_pos n with rfl | hpos
  · rw [Nat.add_zero] at hindex
    rw [heq, ← hindex, hx] at hy
    exact hyx (Option.some.inj hy).symm
  · refine h.behind c (List.mem_of_getElem? hc) y ?_ hyl
    rw [heq] at hy
    obtain ⟨hlt', rfl⟩ := List.getElem?_eq_some_iff.mp hy
    exact List.mem_take_iff_getElem.mpr ⟨c'.next, by omega, rfl⟩

/-- A sweep removes its next thing. -/
theorem Sound.advanced (h : Sound l) (hc : l.sweeps[i]? = some c)
    (hx : c.things[c.next]? = some x) (hstored : x ∈ l.store) : Sound (l.advanced i c x) := by
  have hmem : c ∈ l.sweeps := List.mem_of_getElem? hc
  have hsweeps : ∀ c' ∈ (l.advanced i c x).sweeps,
      c' ∈ l.sweeps ∨ c' = { c with next := c.next + 1 } :=
    fun c' hc' => List.mem_or_eq_of_mem_set hc'
  have hover : l.HandedOver x := h.handedOver_sweep hmem (List.mem_of_getElem? hx)
  refine
    { wf := h.wf, owner := h.owner, made_generated := h.made_generated,
      created_generated := h.created_generated,
      stored_created := fun y hy => h.stored_created y (mem_advanced.mp hy).1, supplied := ?_,
      awaited := h.awaited,
      origin := h.origin, sweep_origin := ?_, refused := h.refused, behind := ?_, ahead := ?_,
      intact := ?_, accounted := ?_ }
  · intro j y hy
    have hyx : y ≠ x := by
      rintro rfl
      exact h.not_handedOver_of_held ((h.wf j).live_held y hy) hover
    exact (h.supplied hy).imp_left fun hys => mem_advanced.mpr ⟨hys, hyx⟩
  · intro c' hc'
    rcases hsweeps c' hc' with hc' | rfl
    · exact h.sweep_origin c' hc'
    · exact h.sweep_origin c hmem
  · intro c' hc' y hy hys
    obtain ⟨hyl, hyx⟩ := mem_advanced.mp hys
    rcases hsweeps c' hc' with hc' | rfl
    · exact h.behind c' hc' y hy hyl
    · obtain ⟨hlt, rfl⟩ := List.getElem?_eq_some_iff.mp hx
      rw [List.take_succ_eq_append_getElem hlt, List.mem_append, List.mem_singleton] at hy
      exact h.behind c hmem y (hy.resolve_right hyx) hyl
  · intro c' hc' y hy hys
    rcases hsweeps c' hc' with hc' | rfl
    · exact h.ahead_advanced hc hx hstored hc' hy hys
    · exact h.live_next hc hx hstored
  · intro L hL
    by_cases hxL : x ∈ L
    · obtain ⟨j, hj⟩ := h.sweep_origin c hmem
      obtain ⟨k, hk⟩ := h.origin L hL
      have heq : L = c.things := h.eq_of_committed hk hj hxL (List.mem_of_getElem? hx)
      exact .inr fun y hy hys => h.covered_advanced hc hx hstored (heq ▸ hy) hys
    · rcases h.intact L hL with hall | hcovered
      · refine .inl fun y hy => mem_advanced.mpr ⟨hall y hy, ?_⟩
        rintro rfl
        exact hxL hy
      · exact .inr fun y hy hys =>
          h.covered_of_covered hc hx hstored (hcovered y hy (mem_advanced.mp hys).1) hys
  · intro y hys
    rcases h.accounted y (mem_advanced.mp hys).1 with hlist | hcovered | hrest
    · exact .inl hlist
    · exact .inr (.inl (h.covered_of_covered hc hx hstored hcovered hys))
    · exact .inr (.inr hrest)

end Advance

end Ledger
end Ecos.Logic
