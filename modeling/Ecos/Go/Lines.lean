import Ecos.Go.Strings

namespace Ecos.Go

section Lines
variable {α : Type*} [DecidableEq α] {delim : α} {s l line rest : List α}

/-- `ReadString`: the line with its delimiter, and what follows; `none` where there is no
delimiter. -/
def readString (delim : α) (s : List α) : Option (List α × List α) :=
  if delim ∈ s then
    some (s.takeWhile (· ≠ delim) ++ [delim], (s.dropWhile (· ≠ delim)).tail)
  else none

theorem readString_eq_none_iff : readString delim s = none ↔ delim ∉ s := by
  rw [readString]
  split_ifs with h <;> simp [h]

theorem readString_append (hl : delim ∉ l) (rest : List α) :
    readString delim (l ++ delim :: rest) = some (l ++ [delim], rest) := by
  obtain ⟨htake, hdrop⟩ := cut_append hl rest
  rw [readString, if_pos (by simp), htake, hdrop]

theorem exists_of_readString (h : readString delim s = some (line, rest)) :
    ∃ l, delim ∉ l ∧ line = l ++ [delim] ∧ s = l ++ delim :: rest := by
  have hmem : delim ∈ s := by
    by_contra hmem
    rw [readString_eq_none_iff.2 hmem] at h
    cases h
  obtain ⟨l, t, rfl, hl⟩ := List.eq_append_cons_of_mem hmem
  rw [readString_append hl, Option.some.injEq, Prod.mk.injEq] at h
  obtain ⟨rfl, rfl⟩ := h
  exact ⟨l, hl, rfl, rfl⟩

def nextLine (delim : α) (s : List α) : List α × List α := (readString delim s).getD (s, [])

/-- `line` is a line in front of `rest`: it ends with the delimiter, or it is the last one. -/
def IsLine (delim : α) (line rest : List α) : Prop :=
  (∃ l, line = l ++ [delim] ∧ delim ∉ l) ∨ delim ∉ line ∧ rest = []

theorem nextLine_append (h : IsLine delim line rest) :
    nextLine delim (line ++ rest) = (line, rest) := by
  rcases h with ⟨l, rfl, hl⟩ | ⟨hline, rfl⟩
  · rw [nextLine, List.append_assoc, List.singleton_append, readString_append hl, Option.getD_some]
  · rw [List.append_nil, nextLine, readString_eq_none_iff.2 hline, Option.getD_none]

theorem exists_nextLine (delim : α) (s : List α) :
    ∃ line rest, IsLine delim line rest ∧ s = line ++ rest := by
  by_cases hs : delim ∈ s
  · obtain ⟨l, t, rfl, hl⟩ := List.eq_append_cons_of_mem hs
    exact ⟨l ++ [delim], t, .inl ⟨l, rfl, hl⟩, by simp⟩
  · exact ⟨s, [], .inr ⟨hs, rfl⟩, by simp⟩

end Lines

section Runs
variable {α : Type*} {p : α → Bool} {a b r t : List α}

theorem span_run (hr : ∀ x ∈ r, p x = true) (ht : ∀ x ∈ t.head?, p x = false) :
    (r ++ t).takeWhile p = r ∧ (r ++ t).dropWhile p = t := by
  rw [List.takeWhile_append_of_pos hr, List.dropWhile_append_of_pos hr]
  cases t with
  | nil => simp
  | cons x t =>
    have hx : ¬p x = true := by simpa using ht x rfl
    rw [List.takeWhile_cons_of_neg hx, List.dropWhile_cons_of_neg hx, List.append_nil]
    exact ⟨rfl, rfl⟩

/-- A string has one longest run at its end. -/
theorem append_run_inj (hr : ∀ x ∈ r, p x = true) (ht : ∀ x ∈ t, p x = true)
    (ha : ∀ x ∈ a.getLast?, p x = false) (hb : ∀ x ∈ b.getLast?, p x = false)
    (h : a ++ r = b ++ t) : a = b ∧ r = t := by
  have hspan : ∀ {c u : List α}, (∀ x ∈ u, p x = true) → (∀ x ∈ c.getLast?, p x = false) →
      ((c ++ u).reverse.takeWhile p = u.reverse) ∧ (c ++ u).reverse.dropWhile p = c.reverse := by
    intro c u hu hc
    rw [List.reverse_append]
    apply span_run
    · simpa using hu
    · simpa using hc
  obtain ⟨htake, hdrop⟩ := hspan hr ha
  rw [h, (hspan ht hb).1] at htake
  rw [h, (hspan ht hb).2] at hdrop
  exact ⟨(List.reverse_injective hdrop).symm, (List.reverse_injective htake).symm⟩

end Runs

end Ecos.Go
