import Mathlib.Logic.Function.Basic
import Mathlib.Tactic

namespace Ecos.Logic

variable {κ ν : Type*}

inductive Op (κ ν : Type*) where
  | put (k : κ) (v : ν)
  | delete (k : κ)
  deriving DecidableEq

namespace Op

def key : Op κ ν → κ
  | put k _ => k
  | delete k => k

def value : Op κ ν → Option ν
  | put _ v => some v
  | delete _ => none

end Op

variable [DecidableEq κ]

def applyOp (m : κ → Option ν) (op : Op κ ν) : κ → Option ν := Function.update m op.key op.value

def replay (m : κ → Option ν) (ops : List (Op κ ν)) : κ → Option ν := ops.foldl applyOp m

def Touched (ops : List (Op κ ν)) (k : κ) : Prop := ∃ op ∈ ops, op.key = k

instance (ops : List (Op κ ν)) (k : κ) : Decidable (Touched ops k) :=
  inferInstanceAs (Decidable (∃ op ∈ ops, op.key = k))

@[simp] theorem replay_nil (m : κ → Option ν) : replay m [] = m := rfl

theorem replay_cons (m : κ → Option ν) (op : Op κ ν) (ops : List (Op κ ν)) :
    replay m (op :: ops) = replay (applyOp m op) ops := rfl

theorem replay_append (m : κ → Option ν) (ops ops' : List (Op κ ν)) :
    replay m (ops ++ ops') = replay (replay m ops) ops' := List.foldl_append

omit [DecidableEq κ] in
theorem not_touched_cons {op : Op κ ν} {ops : List (Op κ ν)} {k : κ} :
    ¬ Touched (op :: ops) k ↔ k ≠ op.key ∧ ¬ Touched ops k := by
  simp [Touched, eq_comm]

theorem replay_of_not_touched {m : κ → Option ν} {ops : List (Op κ ν)} {k : κ}
    (h : ¬ Touched ops k) : replay m ops k = m k := by
  induction ops generalizing m with
  | nil => rfl
  | cons op ops ih =>
    obtain ⟨hk, h⟩ := not_touched_cons.mp h
    rw [replay_cons, ih h, applyOp, Function.update_of_ne hk]

/-- A touched key ends the same from every starting map. -/
theorem replay_of_touched (m m' : κ → Option ν) {ops : List (Op κ ν)} {k : κ}
    (h : Touched ops k) : replay m ops k = replay m' ops k := by
  induction ops generalizing m m' with
  | nil =>
    obtain ⟨op, hop, -⟩ := h
    cases hop
  | cons op ops ih =>
    rw [replay_cons, replay_cons]
    by_cases ht : Touched ops k
    · exact ih _ _ ht
    · -- the last operation on this key is the first of the log
      rw [replay_of_not_touched ht, replay_of_not_touched ht]
      have hk : k = op.key := by
        by_contra hk
        exact not_touched_cons.mpr ⟨hk, ht⟩ h
      rw [hk, applyOp, applyOp, Function.update_self, Function.update_self]

/-- What a key holds was put there by the log or was there before. -/
theorem put_mem_of_replay {m : κ → Option ν} {ops : List (Op κ ν)} {k : κ} {v : ν}
    (h : replay m ops k = some v) : .put k v ∈ ops ∨ m k = some v := by
  induction ops generalizing m with
  | nil => exact .inr h
  | cons op ops ih =>
    rcases ih h with hmem | hm
    · exact .inl (List.mem_cons_of_mem op hmem)
    · by_cases hk : k = op.key
      · subst hk
        rw [applyOp, Function.update_self] at hm
        cases op with
        | put k w =>
          cases hm
          exact .inl List.mem_cons_self
        | delete k => cases hm
      · rw [applyOp, Function.update_of_ne hk] at hm
        exact .inr hm

theorem replay_eq_iff (m m' : κ → Option ν) (ops : List (Op κ ν)) :
    replay m ops = replay m' ops ↔ ∀ k, ¬ Touched ops k → m k = m' k := by
  constructor
  · intro h k hk
    have := congrFun h k
    rwa [replay_of_not_touched hk, replay_of_not_touched hk] at this
  · intro h
    funext k
    by_cases hk : Touched ops k
    · exact replay_of_touched m m' hk
    · rw [replay_of_not_touched hk, replay_of_not_touched hk, h k hk]

omit [DecidableEq κ] in
theorem touched_append {ops ops' : List (Op κ ν)} {k : κ} :
    Touched (ops ++ ops') k ↔ Touched ops k ∨ Touched ops' k := by
  simp only [Touched, List.mem_append, or_and_right, exists_or]

/-- Operations that were applied already may be applied again, if the log goes on from the
first of them. -/
theorem replay_replay_append (m : κ → Option ν) (ops ops' : List (Op κ ν)) :
    replay (replay m ops) (ops ++ ops') = replay m (ops ++ ops') := by
  rw [replay_eq_iff]
  intro k hk
  exact replay_of_not_touched fun h => hk (touched_append.mpr (.inl h))

section Replayable
variable {σ ι : Type*} {step : σ → ι → σ}

/-- A piece of the log may be applied a second time before the log goes on. -/
def Replayable (step : σ → ι → σ) : Prop :=
  ∀ (s : σ) (p q r : List ι),
    (q ++ r).foldl step ((p ++ q).foldl step s) = (p ++ (q ++ r)).foldl step s

/-- A store that is ahead of the index its replay starts at ends where it would have ended
without the replay. -/
theorem Replayable.converges (h : Replayable step) (x : σ) (L : List ι) {s a n : ℕ} (hsa : s ≤ a)
    (han : a ≤ n) :
    ((L.take n).drop s).foldl step ((L.take a).foldl step x) = (L.take n).foldl step x := by
  have hrest : (L.take n).drop s = (L.take a).drop s ++ (L.take n).drop a := by
    rw [List.drop_take, List.drop_take, List.drop_take, show n - s = (a - s) + (n - a) by omega,
      List.take_add, List.drop_drop, show s + (a - s) = a by omega]
  have hstart : ∀ {i}, s ≤ i → L.take i = L.take s ++ (L.take i).drop s := by
    intro i hi
    have htake : (L.take i).take s = L.take s := by rw [List.take_take, min_eq_left hi]
    rw [← htake, List.take_append_drop]
  have hn : L.take n = L.take s ++ ((L.take a).drop s ++ (L.take n).drop a) := by
    rw [← hrest]
    exact hstart (hsa.trans han)
  have := h x (L.take s) ((L.take a).drop s) ((L.take n).drop a)
  rwa [← hn, ← hrest, ← hstart hsa] at this

theorem Replayable.comap {ι' : Type*} (h : Replayable step) (f : ι' → ι) :
    Replayable fun s i => step s (f i) := by
  intro s p q r
  have := h s (p.map f) (q.map f) (r.map f)
  simpa only [← List.map_append, List.foldl_map] using this

structure Follows (step : σ → ι → σ) (op : ι → Op κ ν) where
  look : σ → κ → Option ν
  look_injective : Function.Injective look
  look_step : ∀ s i, look (step s i) = applyOp (look s) (op i)

variable {op : ι → Op κ ν}

theorem Follows.look_foldl (h : Follows step op) (s : σ) (l : List ι) :
    h.look (l.foldl step s) = replay (h.look s) (l.map op) := by
  induction l generalizing s with
  | nil => rfl
  | cons i l ih => rw [List.foldl_cons, ih, h.look_step, List.map_cons, replay_cons]

theorem Follows.replayable (h : Follows step op) : Replayable step := by
  intro s p q r
  apply h.look_injective
  simp only [h.look_foldl, List.map_append]
  rw [replay_append _ (p.map op) (q.map op), replay_replay_append, ← replay_append]

end Replayable

def puts (l : List (κ × ν)) : List (Op κ ν) := l.map fun e => .put e.1 e.2

omit [DecidableEq κ] in
theorem touched_puts {l : List (κ × ν)} {k : κ} : Touched (puts l) k ↔ ∃ v, (k, v) ∈ l := by
  simp [Touched, puts, Op.key]

theorem replay_puts_of_mem (m : κ → Option ν) {l : List (κ × ν)}
    (hd : l.Pairwise fun a b => a.1 ≠ b.1) {k : κ} {v : ν} (h : (k, v) ∈ l) :
    replay m (puts l) k = some v := by
  induction l generalizing m with
  | nil => cases h
  | cons e l ih =>
    obtain ⟨he, hd⟩ := List.pairwise_cons.mp hd
    rcases List.mem_cons.mp h with rfl | h
    · have hk : ¬ Touched (puts l) k := by
        rw [touched_puts]
        rintro ⟨w, hw⟩
        exact he _ hw rfl
      show replay (applyOp m (.put k v)) (puts l) k = some v
      rw [replay_of_not_touched hk]
      exact Function.update_self k (some v) m
    · exact ih (applyOp m (.put e.1 e.2)) hd h

/-- The entries of `s` laid over `m`. -/
def overlay (s m : κ → Option ν) : κ → Option ν := fun k => (s k).or (m k)

omit [DecidableEq κ] in
theorem overlay_apply_eq_iff {s m : κ → Option ν} {k : κ} :
    overlay s m k = s k ↔ (s k = none → m k = none) := by
  rw [overlay]
  cases hs : s k with
  | none => simp
  | some v => simp

/-- Putting every entry of a map, given as a list with distinct keys, overlays the map. -/
theorem replay_puts {s m : κ → Option ν} {l : List (κ × ν)}
    (hd : l.Pairwise fun a b => a.1 ≠ b.1) (hl : ∀ k v, (k, v) ∈ l ↔ s k = some v) :
    replay m (puts l) = overlay s m := by
  funext k
  rw [overlay]
  cases hs : s k with
  | some v => rw [replay_puts_of_mem m hd ((hl k v).mpr hs), Option.some_or]
  | none =>
    have hk : ¬ Touched (puts l) k := by
      rw [touched_puts]
      rintro ⟨v, hv⟩
      rw [(hl k v).mp hv] at hs
      cases hs
    rw [replay_of_not_touched hk, Option.none_or]

/-- Laying `s` over `m` is as good as `s` itself when the log touches every key that only
`m` has. -/
theorem replay_overlay_eq_iff (s m : κ → Option ν) (ops : List (Op κ ν)) :
    replay (overlay s m) ops = replay s ops ↔
      ∀ k, m k ≠ none → s k = none → Touched ops k := by
  rw [replay_eq_iff]
  refine forall_congr' fun k => ?_
  rw [overlay_apply_eq_iff]
  tauto

end Ecos.Logic
