import Ecos.Logic.Machine

namespace Ecos.Logic

variable {σ ι τ ω : Type*}

/-- A forward simulation: the second machine accepts what a step adds to the log, and the states
stay related. -/
def Simulates (step : σ → ι → Option σ) (G : σ → ι → Prop) (next : τ → ω → Option τ)
    (log : σ → List ω) (R : σ → τ → Prop) : Prop :=
  ∀ s a s' t, R s t → G s a → step s a = some s' →
    ∃ es t', log s' = log s ++ es ∧ run next t es = some t' ∧ R s' t'

variable {step : σ → ι → Option σ} {G : σ → ι → Prop} {next : τ → ω → Option τ}
  {log : σ → List ω} {R : σ → τ → Prop}

theorem Simulates.accepted (h : Simulates step G next log R) {s s' : σ} {t₀ t : τ} {as : List ι}
    (hlog : run next t₀ (log s) = some t) (hR : R s t) (hg : Meets step G s as)
    (hr : run step s as = some s') : ∃ t', run next t₀ (log s') = some t' ∧ R s' t' := by
  apply run_invariant (I := fun s => ∃ t', run next t₀ (log s) = some t' ∧ R s t') _ _ hg hr
  · intro u a u' ⟨v, hv, huv⟩ ha hstep
    obtain ⟨es, v', hes, hv', hR'⟩ := h u a u' v huv ha hstep
    refine ⟨v', ?_, hR'⟩
    rw [hes, run_append, hv]
    exact hv'
  · exact ⟨t, hlog, hR⟩

section Related
variable {α β : Type*} {S : α → β → Prop} {l₁ : List α} {l₂ : List β}

theorem related_getElem? (h : List.Forall₂ S l₁ l₂) {i : ℕ} {a : α} (ha : l₁[i]? = some a) :
    ∃ b, l₂[i]? = some b ∧ S a b := by
  obtain ⟨hi, rfl⟩ := List.getElem?_eq_some_iff.mp ha
  have hi' : i < l₂.length := h.length_eq ▸ hi
  exact ⟨l₂[i], List.getElem?_eq_getElem hi', h.get hi hi'⟩

theorem related_set (h : List.Forall₂ S l₁ l₂) {a : α} {b : β} (hab : S a b) (i : ℕ) :
    List.Forall₂ S (l₁.set i a) (l₂.set i b) := by
  induction h generalizing i with
  | nil => exact .nil
  | cons hxy hl ih =>
    cases i with
    | zero => exact .cons hab hl
    | succ i => exact .cons hxy (ih i)

theorem related_eraseIdx (h : List.Forall₂ S l₁ l₂) (i : ℕ) :
    List.Forall₂ S (l₁.eraseIdx i) (l₂.eraseIdx i) := by
  induction h generalizing i with
  | nil => exact .nil
  | cons hxy hl ih =>
    cases i with
    | zero => exact hl
    | succ i => exact .cons hxy (ih i)

theorem related_update {κ : Type*} [DecidableEq κ] {f : κ → α} {g : κ → β} (h : ∀ k, S (f k) (g k))
    {a : α} {b : β} (hab : S a b) (k k' : κ) :
    S (Function.update f k a k') (Function.update g k b k') := by
  simp only [Function.update_apply]
  split_ifs
  · exact hab
  · exact h k'

end Related

end Ecos.Logic
