import Mathlib.Data.List.Basic
import Mathlib.Data.List.Infix
import Mathlib.Tactic

namespace Ecos.Go.Bufio

inductive Outcome (ε : Type*) where
  /-- at most `n + 1` elements -/
  | short (n : ℕ)
  | failed (e : ε)
  deriving DecidableEq, Repr

/-- The underlying reader, with what its next calls do. Calls after these return what they are asked
for. -/
structure Source (α ε : Type*) where
  rest : List α
  outcomes : List (Outcome ε) := []
  deriving DecidableEq, Repr

variable {α ε : Type*} {cap n : ℕ}

/-- `Read` of a non-empty buffer. The error is `none` for `io.EOF`. -/
def Source.read (s : Source α ε) (n : ℕ) : Except (Option ε) (List α) × Source α ε :=
  match s.outcomes with
  | .failed e :: outcomes => (.error (some e), { s with outcomes })
  | .short k :: outcomes =>
    if s.rest.isEmpty then (.error none, { s with outcomes })
    else (.ok (s.rest.take (min n (k + 1))), ⟨s.rest.drop (min n (k + 1)), outcomes⟩)
  | [] =>
    if s.rest.isEmpty then (.error none, s) else (.ok (s.rest.take n), ⟨s.rest.drop n, []⟩)

structure Reader (α ε : Type*) (cap : ℕ) where
  buffered : List α := []
  source : Source α ε
  deriving DecidableEq, Repr

namespace Reader

/-- `Read`. With an empty buffer a large read bypasses it, and a small one fills it first. -/
def read (r : Reader α ε cap) (n : ℕ) : Except (Option ε) (List α) × Reader α ε cap :=
  if n = 0 then (.ok [], r)
  else if r.buffered.isEmpty then
    if cap ≤ n then ((r.source.read n).1, ⟨[], (r.source.read n).2⟩)
    else
      match r.source.read cap with
      | (.ok p, source) => (.ok (p.take n), ⟨p.drop n, source⟩)
      | (.error e, source) => (.error e, ⟨[], source⟩)
  else (.ok (r.buffered.take n), ⟨r.buffered.drop n, r.source⟩)

def contents (r : Reader α ε cap) : List α := r.buffered ++ r.source.rest

end Reader

/-- A call fails, is at the end, or returns at least one element. -/
theorem Source.read_cases (s : Source α ε) (hn : 0 < n) :
    (∃ e, .failed e ∈ s.outcomes ∧ s.read n = (.error (some e), ⟨s.rest, s.outcomes.tail⟩)) ∨
    (s.rest = [] ∧ s.read n = (.error none, ⟨s.rest, s.outcomes.tail⟩)) ∨
    ∃ m, 0 < m ∧ m ≤ n ∧ s.rest ≠ [] ∧
      s.read n = (.ok (s.rest.take m), ⟨s.rest.drop m, s.outcomes.tail⟩) := by
  obtain ⟨rest, outcomes⟩ := s
  rcases outcomes with _ | ⟨k | e, outcomes⟩
  · cases rest with
    | nil => exact .inr (.inl ⟨rfl, rfl⟩)
    | cons a rest => exact .inr (.inr ⟨n, hn, Nat.le_refl n, List.cons_ne_nil a rest, rfl⟩)
  · cases rest with
    | nil => exact .inr (.inl ⟨rfl, rfl⟩)
    | cons a rest =>
      exact .inr (.inr ⟨min n (k + 1), Nat.lt_min.mpr ⟨hn, Nat.succ_pos k⟩, Nat.min_le_left _ _,
        List.cons_ne_nil a rest, rfl⟩)
  · exact .inl ⟨e, List.mem_cons_self, rfl⟩

theorem take_ne_nil {l : List α} {m : ℕ} (hm : 0 < m) (hl : l ≠ []) : l.take m ≠ [] := by
  rw [Ne, List.take_eq_nil_iff, not_or]
  exact ⟨Nat.ne_of_gt hm, hl⟩

namespace Reader

variable {r r' : Reader α ε cap}

def Clean (r : Reader α ε cap) : Prop := ∀ e, .failed e ∉ r.source.outcomes

/-- The same for the buffered reader. It does not fail where the source does not. -/
theorem read_cases (r : Reader α ε cap) (hn : 0 < n) (hcap : 0 < cap) :
    (∃ e r', ¬r.Clean ∧ r.read n = (.error (some e), r')) ∨
    (∃ r', r.contents = [] ∧ r.read n = (.error none, r')) ∨
    ∃ p r', r.contents = p ++ r'.contents ∧ p ≠ [] ∧ p.length ≤ n ∧ (r.Clean → r'.Clean) ∧
      r.read n = (.ok p, r') := by
  obtain ⟨buffered, source⟩ := r
  have hclean : ∀ q rest, (⟨buffered, source⟩ : Reader α ε cap).Clean →
      (⟨q, ⟨rest, source.outcomes.tail⟩⟩ : Reader α ε cap).Clean :=
    fun q rest h e hmem => h e (List.mem_of_mem_tail hmem)
  simp only [read, if_neg (Nat.ne_of_gt hn)]
  cases buffered with
  | cons a buffered =>
    refine .inr (.inr ⟨(a :: buffered).take n, ⟨(a :: buffered).drop n, source⟩, ?_,
      take_ne_nil hn (List.cons_ne_nil a buffered), ?_, id, rfl⟩)
    · rw [contents, contents, ← List.append_assoc, List.take_append_drop]
    · rw [List.length_take]
      exact Nat.min_le_left _ _
  | nil =>
    simp only [List.isEmpty_nil, if_true]
    split_ifs with hlarge
    · rcases source.read_cases hn with ⟨e, he, h⟩ | ⟨hnil, h⟩ | ⟨m, hm, hle, hne, h⟩
      · rw [h]
        exact .inl ⟨e, _, fun hc => hc e he, rfl⟩
      · rw [h]
        exact .inr (.inl ⟨_, hnil, rfl⟩)
      · rw [h]
        refine .inr (.inr ⟨_, _, ?_, take_ne_nil hm hne, ?_, hclean [] _, rfl⟩)
        · exact (List.take_append_drop m source.rest).symm
        · rw [List.length_take]
          omega
    · rcases source.read_cases hcap with ⟨e, he, h⟩ | ⟨hnil, h⟩ | ⟨m, hm, hle, hne, h⟩
      · rw [h]
        exact .inl ⟨e, _, fun hc => hc e he, rfl⟩
      · rw [h]
        exact .inr (.inl ⟨_, hnil, rfl⟩)
      · rw [h]
        refine .inr (.inr ⟨_, _, ?_, take_ne_nil hn (take_ne_nil hm hne), ?_, hclean _ _, rfl⟩)
        · dsimp only [contents]
          rw [← List.append_assoc, List.take_append_drop, List.take_append_drop, List.nil_append]
        · rw [List.length_take]
          exact Nat.min_le_left _ _

/-- Calls of `Read` with a buffer of `n` up to an error: what they return and the error, if there is
one besides `io.EOF`. There is no result where the calls run out of fuel. -/
def chunks (n : ℕ) : ℕ → Reader α ε cap → Option (List (List α) × Option ε)
  | 0, _ => none
  | fuel + 1, r =>
    match r.read n with
    | (.error e, _) => some ([], e)
    | (.ok p, r) => (chunks n fuel r).map fun (ps, e) => (p :: ps, e)

/-- Every call returns something, so there are no more of them than elements. What they return is
all there is, unless one fails. -/
theorem chunks_spec (hn : 0 < n) (hcap : 0 < cap) {fuel : ℕ} (hfuel : r.contents.length < fuel) :
    ∃ ps e, r.chunks n fuel = some (ps, e) ∧ ps.flatten <+: r.contents ∧
      (e = none → ps.flatten = r.contents) ∧ (r.Clean → e = none) ∧
      ∀ p ∈ ps, p ≠ [] ∧ p.length ≤ n := by
  induction fuel generalizing r with
  | zero => exact absurd hfuel (Nat.not_lt_zero _)
  | succ fuel ih =>
    rw [chunks]
    rcases r.read_cases hn hcap with
      ⟨e, r', hfails, h⟩ | ⟨r', hnil, h⟩ | ⟨p, r', hcontents, hne, hle, hclean, h⟩
    · rw [h]
      exact ⟨[], some e, rfl, List.nil_prefix, fun he => (by cases he), fun hc => absurd hc hfails,
        fun p hp => (by cases hp)⟩
    · rw [h]
      exact ⟨[], none, rfl, List.nil_prefix, fun _ => hnil.symm, fun _ => rfl,
        fun p hp => (by cases hp)⟩
    · have hpos := List.length_pos_iff.mpr hne
      rw [hcontents, List.length_append] at hfuel
      obtain ⟨ps, e, hps, hbegins, hall, hends, hchunks⟩ := ih (r := r') (by omega)
      rw [h]
      dsimp only
      rw [hps]
      refine ⟨p :: ps, e, rfl, ?_, fun he => ?_, fun hc => hends (hclean hc), ?_⟩
      · rw [List.flatten_cons, hcontents]
        exact (List.prefix_append_right_inj p).mpr hbegins
      · rw [List.flatten_cons, hcontents, hall he]
      · exact List.forall_mem_cons.mpr ⟨⟨hne, hle⟩, hchunks⟩

end Reader

end Ecos.Go.Bufio
