import Mathlib.Data.Option.Basic
import Mathlib.Tactic

namespace Ecos.Logic

variable {σ ι : Type*}

def run (step : σ → ι → Option σ) (s : σ) (as : List ι) : Option σ := as.foldlM step s

/-- Every action of the run meets `G` in the state it is taken in. -/
def Meets (step : σ → ι → Option σ) (G : σ → ι → Prop) : σ → List ι → Prop
  | _, [] => True
  | s, a :: as => G s a ∧ ∀ s', step s a = some s' → Meets step G s' as

/-- A run's guard is decided by evaluating the run. -/
instance Meets.instDecidable (step : σ → ι → Option σ) (G : σ → ι → Prop)
    [∀ s a, Decidable (G s a)] : ∀ s as, Decidable (Meets step G s as)
  | _, [] => isTrue trivial
  | s, a :: as =>
    match h : step s a with
    | none => decidable_of_iff (G s a) (by simp [Meets, h])
    | some s' =>
      have := Meets.instDecidable step G s' as
      decidable_of_iff (G s a ∧ Meets step G s' as) (by simp [Meets, h])

variable {step : σ → ι → Option σ} {G : σ → ι → Prop} {I : σ → Prop}

@[simp] theorem run_nil (s : σ) : run step s [] = some s := rfl

theorem run_cons (s : σ) (a : ι) (as : List ι) :
    run step s (a :: as) = (step s a).bind fun s' => run step s' as := by
  rw [run, List.foldlM_cons]
  rfl

theorem run_append (s : σ) (as bs : List ι) :
    run step s (as ++ bs) = (run step s as).bind fun s' => run step s' bs := by
  rw [run, List.foldlM_append]
  rfl

/-- What every step that meets the guard keeps, of the actions so far and the state, is kept by
every run that meets it. -/
theorem run_history {H : List ι → σ → Prop}
    (hstep : ∀ as a s s', H as s → G s a → step s a = some s' → H (as ++ [a]) s')
    {s s' : σ} {as : List ι} (hs : H [] s) (hg : Meets step G s as)
    (hr : run step s as = some s') : H as s' := by
  -- the induction is on the rest of the run, for every beginning
  have hall : ∀ before (s : σ), H before s → Meets step G s as → run step s as = some s' →
      H (before ++ as) s' := by
    clear hs hg hr
    induction as with
    | nil =>
      intro before s hs _ hr
      rw [run_nil, Option.some.injEq] at hr
      rw [List.append_nil]
      exact hr ▸ hs
    | cons a as ih =>
      intro before s hs hg hr
      rw [run_cons, Option.bind_eq_some_iff] at hr
      obtain ⟨t, ht, hr⟩ := hr
      have hrest := ih (before ++ [a]) t (hstep before a s t hs hg.1 ht) (hg.2 t ht) hr
      rwa [List.append_assoc] at hrest
  exact hall [] s hs hg hr

theorem run_invariant (hstep : ∀ s a s', I s → G s a → step s a = some s' → I s')
    {s s' : σ} {as : List ι} (hs : I s) (hg : Meets step G s as)
    (hr : run step s as = some s') : I s' :=
  run_history (H := fun _ => I) (fun _ a s s' => hstep s a s') hs hg hr

/-- A guard that looks at the actions only. -/
theorem meets_of_forall {as : List ι} (h : ∀ a ∈ as, ∀ s, G s a) (s : σ) : Meets step G s as := by
  induction as generalizing s with
  | nil => trivial
  | cons a as ih =>
    exact ⟨h a List.mem_cons_self s,
      fun s' _ => ih (fun b hb => h b (List.mem_cons_of_mem a hb)) s'⟩

theorem meets_and {H : σ → ι → Prop} {s : σ} {as : List ι} (hg : Meets step G s as)
    (hh : Meets step H s as) : Meets step (fun s a => G s a ∧ H s a) s as := by
  induction as generalizing s with
  | nil => trivial
  | cons a as ih => exact ⟨⟨hg.1, hh.1⟩, fun s' hs' => ih (hg.2 s' hs') (hh.2 s' hs')⟩

theorem run_preserved (hstep : ∀ s a s', I s → step s a = some s' → I s') {s s' : σ} {as : List ι}
    (hs : I s) (hr : run step s as = some s') : I s' :=
  run_invariant (G := fun _ _ => True) (fun s a s' h _ => hstep s a s' h) hs
    (meets_of_forall (fun _ _ _ => trivial) s) hr

/-- Where a step that meets `H` keeps `I` exactly if it meets the guard `G`, a run does so exactly
if it meets `G` all along. `J` is what every step that meets `H` keeps. -/
theorem run_iff_meets_of {J : σ → Prop} {H : σ → ι → Prop}
    (hinv : ∀ s a s', J s → H s a → step s a = some s' → J s')
    (hstep : ∀ s a s', J s → H s a → step s a = some s' → (I s' ↔ I s ∧ G s a))
    {s s' : σ} {as : List ι} (hs : J s) (hg : Meets step H s as) (hr : run step s as = some s') :
    I s' ↔ I s ∧ Meets step G s as := by
  induction as generalizing s with
  | nil =>
    rw [run_nil, Option.some.injEq] at hr
    rw [hr]
    exact ⟨fun h => ⟨h, trivial⟩, fun h => h.1⟩
  | cons a as ih =>
    rw [run_cons, Option.bind_eq_some_iff] at hr
    obtain ⟨t, ht, hr⟩ := hr
    have hrest : (∀ t', step s a = some t' → Meets step G t' as) ↔ Meets step G t as := by
      simp [ht]
    rw [ih (hinv s a t hs hg.1 ht) (hg.2 t ht) hr, hstep s a t hs hg.1 ht, Meets, hrest, and_assoc]

theorem run_iff_meets (hstep : ∀ s a s', step s a = some s' → (I s' ↔ I s ∧ G s a))
    {s s' : σ} {as : List ι} (hr : run step s as = some s') :
    I s' ↔ I s ∧ Meets step G s as :=
  run_iff_meets_of (J := fun _ => True) (H := fun _ _ => True) (fun _ _ _ _ _ _ => trivial)
    (fun s a s' _ _ => hstep s a s') trivial (meets_of_forall (fun _ _ _ => trivial) s) hr

/-- Where no step is stuck and a step keeps `I` exactly where it meets the guard, a run meets the
guard exactly where `I` holds all along. -/
theorem meets_iff_forall_initial {W : σ → Prop} {as : List ι}
    (hstep : ∀ a ∈ as, ∀ s, W s → I s → ∃ s', step s a = some s' ∧ W s' ∧ (I s' ↔ G s a))
    {s : σ} (hw : W s) (hs : I s) :
    Meets step G s as ↔ ∀ bs, bs <+: as → ∃ s', run step s bs = some s' ∧ I s' := by
  induction as generalizing s with
  | nil =>
    refine iff_of_true trivial fun bs hbs => ?_
    rw [List.prefix_nil.mp hbs]
    exact ⟨s, rfl, hs⟩
  | cons a as ih =>
    obtain ⟨t, ht, hwt, hiff⟩ := hstep a List.mem_cons_self s hw hs
    have hrest := ih (fun b hb => hstep b (List.mem_cons_of_mem a hb)) hwt
    constructor
    · rintro ⟨hg, hmeets⟩ bs hbs
      rcases List.prefix_cons_iff.mp hbs with rfl | ⟨cs, rfl, hcs⟩
      · exact ⟨s, rfl, hs⟩
      · rw [run_cons, ht]
        exact (hrest (hiff.mpr hg)).mp (hmeets t ht) cs hcs
    · intro hall
      have hfirst : ∀ bs, bs <+: as → ∃ s', run step t bs = some s' ∧ I s' := by
        intro bs hbs
        have := hall (a :: bs) (List.cons_prefix_cons.mpr ⟨rfl, hbs⟩)
        rwa [run_cons, ht] at this
      -- the state after the first step is that after the empty run from there
      obtain ⟨t', ht', hit⟩ := hfirst [] List.nil_prefix
      cases ht'
      refine ⟨hiff.mp hit, fun s' hs' => ?_⟩
      rw [ht] at hs'
      cases hs'
      exact (hrest hit).mpr hfirst

end Ecos.Logic
