import Mathlib.Data.List.Basic
import Mathlib.Tactic

namespace Ecos.Go.Path

variable {α : Type*} [DecidableEq α]

/-- The `..` element. -/
def up (dot : α) : List α := [dot, dot]

def elements (sep dot : α) (p : List α) : List (List α) :=
  (p.splitOn sep).filter fun e => decide (e ≠ [] ∧ e ≠ [dot])

/-- One element against the elements kept so far, the last one first. A `..` that
cannot backtrack is kept in a relative path and dropped at the root. -/
def push (dot : α) (rooted : Bool) (out : List (List α)) (e : List α) : List (List α) :=
  if e = up dot then
    match out with
    | [] => if rooted then [] else [e]
    | t :: rest => if t = up dot then e :: t :: rest else rest
  else e :: out

def resolve (dot : α) (rooted : Bool) (es : List (List α)) : List (List α) :=
  (es.foldl (push dot rooted) []).reverse

def isRooted (sep : α) (p : List α) : Bool := p.head? == some sep

def render (sep dot : α) (rooted : Bool) (es : List (List α)) : List α :=
  if rooted then sep :: [sep].intercalate es
  else if es = [] then [dot] else [sep].intercalate es

def clean (sep dot : α) (p : List α) : List α :=
  render sep dot (isRooted sep p) (resolve dot (isRooted sep p) (elements sep dot p))

def join (sep dot : α) (ps : List (List α)) : List α :=
  if ps.filter (· ≠ []) = [] then [] else clean sep dot ([sep].intercalate (ps.filter (· ≠ [])))

structure IsElement (sep dot : α) (e : List α) : Prop where
  ne_nil : e ≠ []
  sep_free : sep ∉ e
  ne_dot : e ≠ [dot]

/-- An ordinary element: neither empty nor one of `.` and `..`. -/
structure IsName (sep dot : α) (e : List α) : Prop extends IsElement sep dot e where
  ne_up : e ≠ up dot

variable {sep dot : α}

instance decidableIsElement (e : List α) : Decidable (IsElement sep dot e) :=
  decidable_of_iff (e ≠ [] ∧ sep ∉ e ∧ e ≠ [dot])
    ⟨fun h => ⟨h.1, h.2.1, h.2.2⟩, fun h => ⟨h.ne_nil, h.sep_free, h.ne_dot⟩⟩

instance decidableIsName (e : List α) : Decidable (IsName sep dot e) :=
  decidable_of_iff (IsElement sep dot e ∧ e ≠ up dot)
    ⟨fun h => ⟨h.1, h.2⟩, fun h => ⟨h.toIsElement, h.ne_up⟩⟩

theorem sep_free_of_mem_splitOn (p : List α) {e : List α} (he : e ∈ p.splitOn sep) : sep ∉ e := by
  induction p generalizing e with
  | nil =>
    rw [List.splitOn_nil, List.mem_singleton] at he
    simp [he]
  | cons a p ih =>
    rw [List.splitOn_cons_eq_if_modifyHead] at he
    split_ifs at he with ha
    · rcases List.mem_cons.mp he with rfl | h
      · simp
      · exact ih h
    · obtain ⟨x, xs, hx⟩ := List.exists_cons_of_ne_nil (List.splitOn_ne_nil sep p)
      rw [hx] at he ih
      rcases List.mem_cons.mp he with rfl | h
      · have hax : sep ≠ a := fun h => ha (by simp [h])
        simpa [hax] using ih (List.mem_cons_self)
      · exact ih (List.mem_cons_of_mem _ h)

theorem isElement_of_mem_elements {p e : List α} (he : e ∈ elements sep dot p) :
    IsElement sep dot e := by
  obtain ⟨hm, hp⟩ := List.mem_filter.mp he
  have hne := of_decide_eq_true hp
  exact ⟨hne.1, sep_free_of_mem_splitOn p hm, hne.2⟩

@[simp] theorem elements_nil : elements sep dot ([] : List α) = [] := by simp [elements]

/-- A separator splits the elements of a string in two. -/
theorem elements_append_sep (p q : List α) :
    elements sep dot (p ++ sep :: q) = elements sep dot p ++ elements sep dot q := by
  rw [elements, List.splitOn_append_cons_self, List.filter_append]
  rfl

@[simp] theorem elements_sep_cons (p : List α) :
    elements sep dot (sep :: p) = elements sep dot p := by
  simpa using (elements_append_sep [] p : elements sep dot ([] ++ sep :: p) = _)

@[simp] theorem elements_concat_sep (p : List α) :
    elements sep dot (p ++ [sep]) = elements sep dot p := by
  simpa using (elements_append_sep p [] : elements sep dot (p ++ sep :: []) = _)

theorem elements_intercalate (ps : List (List α)) :
    elements sep dot ([sep].intercalate ps) = ps.flatMap (elements sep dot) := by
  induction ps with
  | nil => simp
  | cons p ps ih =>
    cases ps with
    | nil => simp
    | cons q qs =>
      rw [List.intercalate_cons_cons, List.append_assoc, List.singleton_append,
        elements_append_sep, ih]
      rfl

theorem elements_of_isElement {e : List α} (he : IsElement sep dot e) :
    elements sep dot e = [e] := by
  rw [elements, List.splitOn_eq_singleton he.sep_free, List.filter_singleton]
  simp [he.ne_nil, he.ne_dot]

theorem flatMap_elements {es : List (List α)} (h : ∀ e ∈ es, IsElement sep dot e) :
    es.flatMap (elements sep dot) = es := by
  induction es with
  | nil => rfl
  | cons e es ih =>
    rw [List.flatMap_cons, elements_of_isElement (h e List.mem_cons_self),
      ih fun x hx => h x (List.mem_cons_of_mem _ hx), List.singleton_append]

/-- A string without separators that is no element of a path has none. -/
theorem elements_eq_nil {p : List α} (hfree : sep ∉ p) (h : ¬ (p ≠ [] ∧ p ≠ [dot])) :
    elements sep dot p = [] := by
  rw [elements, List.splitOn_eq_singleton hfree, List.filter_singleton]
  simp [h]

omit [DecidableEq α] in
theorem intercalate_append {ns es : List (List α)} (hn : ns ≠ []) (he : es ≠ []) :
    [sep].intercalate (ns ++ es) = [sep].intercalate ns ++ sep :: [sep].intercalate es := by
  induction ns with
  | nil => exact absurd rfl hn
  | cons n ns ih =>
    cases ns with
    | nil =>
      obtain ⟨e, es, rfl⟩ := List.exists_cons_of_ne_nil he
      simp [List.intercalate_cons_cons]
    | cons m ms =>
      rw [List.cons_append, List.cons_append, List.intercalate_cons_cons, ← List.cons_append,
        ih (List.cons_ne_nil _ _), List.intercalate_cons_cons]
      simp

/-- A path can be cut after a run of elements only where its own elements are cut. -/
theorem intercalate_prefix_iff {ns es : List (List α)} (hn : ns ≠ [])
    (hns : ∀ e ∈ ns, sep ∉ e) (hes : ∀ e ∈ es, sep ∉ e) :
    [sep].intercalate ns ++ [sep] <+: [sep].intercalate es ↔ ∃ t, t ≠ [] ∧ es = ns ++ t := by
  constructor
  · rintro ⟨s, hs⟩
    have hne : es ≠ [] := by
      rintro rfl
      simp at hs
    refine ⟨s.splitOn sep, List.splitOn_ne_nil sep s, ?_⟩
    calc es = ([sep].intercalate es).splitOn sep := (List.splitOn_intercalate sep hes hne).symm
      _ = ([sep].intercalate ns ++ sep :: s).splitOn sep := by rw [← hs]; simp
      _ = ns ++ s.splitOn sep := by
        rw [List.splitOn_append_cons_self, List.splitOn_intercalate sep hns hn]
  · rintro ⟨t, ht, rfl⟩
    rw [intercalate_append hn ht]
    exact ⟨[sep].intercalate t, by simp⟩

omit [DecidableEq α] in
theorem prefix_of_prefix_append_sep {p q rest : List α} (hp : sep ∉ p)
    (h : p <+: q ++ sep :: rest) : p <+: q := by
  rcases List.prefix_or_prefix_of_prefix h (List.prefix_append q (sep :: rest)) with h' | ⟨u, rfl⟩
  · exact h'
  · rw [List.prefix_append_right_inj] at h
    cases u with
    | nil => simp
    | cons d u =>
      obtain ⟨rfl, -⟩ := List.cons_prefix_cons.mp h
      exact absurd (by simp) hp

omit [DecidableEq α] in
theorem intercalate_ne_nil {e : List α} {es : List (List α)} (he : e ≠ []) :
    [sep].intercalate (e :: es) ≠ [] := by
  cases es with
  | nil => simpa using he
  | cons e₁ es => simp [List.intercalate_cons_cons]

/-- One path begins another: its last element may be the beginning of an element only. -/
def Begins : List (List α) → List (List α) → Prop
  | [], _ => True
  | _ :: _, [] => False
  | [e], e' :: _ => e <+: e'
  | e :: es, e' :: es' => e = e' ∧ Begins es es'

instance decidableBegins : ∀ es es' : List (List α), Decidable (Begins es es')
  | [], _ => isTrue trivial
  | _ :: _, [] => isFalse id
  | [e], e' :: _ => inferInstanceAs (Decidable (e <+: e'))
  | e :: e₁ :: es, e' :: es' =>
    have := decidableBegins (e₁ :: es) es'
    inferInstanceAs (Decidable (e = e' ∧ Begins (e₁ :: es) es'))

/-- Paths of whole elements begin each other as strings where they do as paths. -/
theorem intercalate_prefix_intercalate {es es' : List (List α)}
    (hes : ∀ e ∈ es, IsElement sep dot e) (hes' : ∀ e ∈ es', IsElement sep dot e) :
    [sep].intercalate es <+: [sep].intercalate es' ↔ Begins es es' := by
  induction es generalizing es' with
  | nil => simp [Begins]
  | cons e es ih =>
    have he := hes e List.mem_cons_self
    cases es' with
    | nil =>
      refine iff_of_false ?_ (by simp [Begins])
      intro h
      exact intercalate_ne_nil he.ne_nil (List.prefix_nil.mp h)
    | cons e' es' =>
      have he' := hes' e' List.mem_cons_self
      cases es with
      | nil =>
        rw [List.intercalate_singleton, Begins]
        cases es' with
        | nil => rw [List.intercalate_singleton]
        | cons e₁' es' =>
          rw [List.intercalate_cons_cons, List.append_assoc, List.singleton_append]
          exact ⟨prefix_of_prefix_append_sep he.sep_free,
            fun h => h.trans (List.prefix_append _ _)⟩
      | cons e₁ es =>
        rw [List.intercalate_cons_cons, List.append_assoc, List.singleton_append, Begins,
          ← ih (fun x hx => hes x (List.mem_cons_of_mem e hx))
            fun x hx => hes' x (List.mem_cons_of_mem e' hx)]
        swap
        · simp
        constructor
        · intro h
          -- the separator after `e` ends the first element of the other path
          have hcut : [sep].intercalate [e] ++ [sep] <+: [sep].intercalate (e' :: es') := by
            refine List.IsPrefix.trans ⟨[sep].intercalate (e₁ :: es), ?_⟩ h
            simp
          obtain ⟨t, ht, heq⟩ := (intercalate_prefix_iff (by simp) (by simpa using he.sep_free)
            fun x hx => (hes' x hx).sep_free).mp hcut
          obtain ⟨rfl, rfl⟩ : e' = e ∧ es' = t := by simpa using heq
          rw [show e' :: es' = [e'] ++ es' from rfl, intercalate_append (by simp) ht,
            List.intercalate_singleton, List.prefix_append_right_inj, List.cons_prefix_cons] at h
          exact ⟨rfl, h.2⟩
        · rintro ⟨rfl, h⟩
          have ht : es' ≠ [] := by
            rintro rfl
            exact intercalate_ne_nil (hes e₁ (by simp)).ne_nil (List.prefix_nil.mp h)
          rw [show e :: es' = [e] ++ es' from rfl, intercalate_append (by simp) ht,
            List.intercalate_singleton, List.prefix_append_right_inj, List.cons_prefix_cons]
          exact ⟨rfl, h⟩

/-- The elements of what begins an element begin it. -/
theorem intercalate_elements_of_begins_element {p e : List α} (he : IsElement sep dot e)
    (h : p <+: e) : [sep].intercalate (elements sep dot p) <+: e := by
  have hfree : sep ∉ p := fun hm => he.sep_free (h.subset hm)
  by_cases hel : p ≠ [] ∧ p ≠ [dot]
  · rw [elements_of_isElement ⟨hel.1, hfree, hel.2⟩]
    simpa using h
  · simp [elements_eq_nil hfree hel]

/-- The elements of what begins a path begin it. -/
theorem intercalate_elements_of_begins {es : List (List α)} (hes : ∀ e ∈ es, IsElement sep dot e)
    {p : List α} (h : p <+: [sep].intercalate es) :
    [sep].intercalate (elements sep dot p) <+: [sep].intercalate es := by
  induction es generalizing p with
  | nil =>
    have hp : p = [] := List.prefix_nil.mp (by simpa using h)
    simp [hp]
  | cons e es ih =>
    have he := hes e List.mem_cons_self
    cases es with
    | nil => simpa using intercalate_elements_of_begins_element he (by simpa using h)
    | cons e' es =>
      rw [List.intercalate_cons_cons, List.append_assoc, List.singleton_append] at h ⊢
      -- it ends in the first element, or goes on after the separator
      rcases List.prefix_or_prefix_of_prefix h (List.prefix_append e _) with hp | ⟨q, rfl⟩
      · exact (intercalate_elements_of_begins_element he hp).trans (List.prefix_append e _)
      · rw [List.prefix_append_right_inj] at h
        cases q with
        | nil => simp [elements_of_isElement he]
        | cons x q =>
          obtain ⟨rfl, hq⟩ := List.cons_prefix_cons.mp h
          have hrest := ih (fun e he => hes e (List.mem_cons_of_mem _ he)) hq
          rw [elements_append_sep, elements_of_isElement he]
          by_cases hnone : elements x dot q = []
          · simp [hnone]
          · rw [intercalate_append (List.cons_ne_nil _ _) hnone, List.intercalate_singleton,
              List.prefix_append_right_inj, List.cons_prefix_cons]
            exact ⟨rfl, hrest⟩

/-- Names are kept in order. -/
theorem foldl_push_names (b : Bool) {ns : List (List α)} (hn : ∀ e ∈ ns, e ≠ up dot)
    (out : List (List α)) : ns.foldl (push dot b) out = ns.reverse ++ out := by
  induction ns generalizing out with
  | nil => rfl
  | cons n ns ih =>
    have hp : push dot b out n = n :: out := if_neg (hn n List.mem_cons_self)
    rw [List.foldl_cons, hp, ih fun e he => hn e (List.mem_cons_of_mem _ he)]
    simp

/-- Below the root each `..` takes one name back, and the root absorbs the rest. -/
theorem foldl_push_ups_rooted (k : ℕ) {out : List (List α)} (hn : ∀ e ∈ out, e ≠ up dot) :
    (List.replicate k (up dot)).foldl (push dot true) out = out.drop k := by
  induction k generalizing out with
  | zero => rfl
  | succ k ih =>
    rw [List.replicate_succ, List.foldl_cons]
    cases out with
    | nil => simpa [push] using @ih [] (by simp)
    | cons t out =>
      have hp : push dot true (t :: out) (up dot) = out := by
        simp [push, hn t List.mem_cons_self]
      rw [hp, ih fun e he => hn e (List.mem_cons_of_mem _ he), List.drop_succ_cons]

variable (dot) in
theorem foldl_push_ups_relative (j k : ℕ) :
    (List.replicate k (up dot)).foldl (push dot false) (List.replicate j (up dot)) =
      List.replicate (j + k) (up dot) := by
  induction k generalizing j with
  | zero => rfl
  | succ k ih =>
    have hp : push dot false (List.replicate j (up dot)) (up dot) =
        List.replicate (j + 1) (up dot) := by
      cases j with
      | zero => simp [push]
      | succ j => simp [push, List.replicate_succ]
    rw [List.replicate_succ, List.foldl_cons, hp, ih]
    congr 1
    omega

/-- The normal form of a resolved path: some `..` and then only names. A rooted
path keeps no `..`. -/
def Normal (sep dot : α) (b : Bool) (es : List (List α)) : Prop :=
  ∃ k rest, es = List.replicate k (up dot) ++ rest ∧
    (∀ e ∈ rest, IsName sep dot e) ∧ (b = true → k = 0)

theorem normal_push {b : Bool} {out : List (List α)} {e : List α}
    (h : Normal sep dot b out.reverse) (he : IsElement sep dot e) :
    Normal sep dot b (push dot b out e).reverse := by
  obtain ⟨k, rest, ho, hn, hk⟩ := h
  have hout : out = rest.reverse ++ List.replicate k (up dot) := by
    simpa using congrArg List.reverse ho
  by_cases hu : e = up dot
  · cases hr : rest.reverse with
    | nil =>
      -- nothing to take back: the element is kept, unless this is the root
      have hor : out = List.replicate k (up dot) := by simpa [hr] using hout
      cases b with
      | true =>
        refine ⟨0, [], ?_, by simp, by simp⟩
        simp [hor, hk rfl, push, hu]
      | false =>
        refine ⟨k + 1, [], ?_, by simp, by simp⟩
        have hp := foldl_push_ups_relative dot k 1
        simp only [List.replicate_one, List.foldl_cons, List.foldl_nil] at hp
        rw [hor, hu, hp, List.reverse_replicate, List.append_nil]
    | cons x xs =>
      have hx : x ∈ rest := by
        rw [← List.mem_reverse, hr]
        exact List.mem_cons_self
      have hp : push dot b out e = xs ++ List.replicate k (up dot) := by
        rw [hout, hr, hu]
        simp [push, (hn x hx).ne_up]
      refine ⟨k, xs.reverse, by simp [hp], ?_, hk⟩
      intro y hy
      apply hn y
      rw [← List.mem_reverse, hr]
      exact List.mem_cons_of_mem _ (List.mem_reverse.mp hy)
  · refine ⟨k, rest ++ [e], by simp [push, hu, ho], ?_, hk⟩
    intro x hx
    rcases List.mem_append.mp hx with h | h
    · exact hn x h
    · rw [List.mem_singleton.mp h]
      exact ⟨he, hu⟩

theorem normal_resolve (b : Bool) {es : List (List α)} (hes : ∀ e ∈ es, IsElement sep dot e) :
    Normal sep dot b (resolve dot b es) := by
  have hf (out : List (List α)) (ho : Normal sep dot b out.reverse) :
      Normal sep dot b (es.foldl (push dot b) out).reverse := by
    induction es generalizing out with
    | nil => exact ho
    | cons e es ih =>
      exact ih (fun x hx => hes x (List.mem_cons_of_mem _ hx)) _
        (normal_push ho (hes e List.mem_cons_self))
  exact hf [] ⟨0, [], rfl, by simp, fun _ => rfl⟩

theorem resolve_normal {b : Bool} {es : List (List α)} (h : Normal sep dot b es) :
    resolve dot b es = es := by
  obtain ⟨k, rest, rfl, hn, hk⟩ := h
  have hups : (List.replicate k (up dot)).foldl (push dot b) [] = List.replicate k (up dot) := by
    cases b with
    | true => simp [hk rfl]
    | false => simpa using foldl_push_ups_relative dot 0 k
  rw [resolve, List.foldl_append, hups, foldl_push_names b fun e he => (hn e he).ne_up]
  simp

/-- Appended to rooted names, `k` times `..` takes back the last `k` of them. -/
theorem resolve_rooted_append {vs rest : List (List α)} (k : ℕ)
    (hv : ∀ e ∈ vs, IsName sep dot e) (hr : ∀ e ∈ rest, IsName sep dot e) :
    resolve dot true (vs ++ (List.replicate k (up dot) ++ rest)) =
      vs.take (vs.length - k) ++ rest := by
  rw [resolve, List.foldl_append, List.foldl_append,
    foldl_push_names true fun e he => (hv e he).ne_up, List.append_nil,
    foldl_push_ups_rooted k fun e he => (hv e (List.mem_reverse.mp he)).ne_up,
    foldl_push_names true fun e he => (hr e he).ne_up]
  simp [List.drop_reverse]

theorem elements_render (b : Bool) {es : List (List α)} (hes : ∀ e ∈ es, IsElement sep dot e) :
    elements sep dot (render sep dot b es) = es := by
  have hi : elements sep dot ([sep].intercalate es) = es := by
    rw [elements_intercalate, flatMap_elements hes]
  cases b with
  | true => simpa [render] using hi
  | false =>
    by_cases he : es = []
    · by_cases hd : dot = sep
      · simp [render, he, hd]
      · have hm : sep ∉ [dot] := by simpa using fun h => hd h.symm
        simp [render, he, elements, List.splitOn_eq_singleton hm]
    · simpa [render, he] using hi

omit [DecidableEq α] in
theorem Normal.isElement {b : Bool} {es : List (List α)} (h : Normal sep dot b es)
    (hsd : sep ≠ dot) : ∀ e ∈ es, IsElement sep dot e := by
  obtain ⟨k, rest, rfl, hn, -⟩ := h
  intro e he
  rcases List.mem_append.mp he with hu | hr
  · rw [List.eq_of_mem_replicate hu]
    exact ⟨by simp [up], by simp [up, hsd], by simp [up]⟩
  · exact (hn e hr).toIsElement

theorem normal_elements_clean (hsd : sep ≠ dot) (p : List α) :
    elements sep dot (clean sep dot p) =
        resolve dot (isRooted sep p) (elements sep dot p) ∧
      Normal sep dot (isRooted sep p) (elements sep dot (clean sep dot p)) := by
  have hn : Normal sep dot (isRooted sep p) (resolve dot (isRooted sep p) (elements sep dot p)) :=
    normal_resolve _ fun e he => isElement_of_mem_elements he
  have he : elements sep dot (clean sep dot p) =
      resolve dot (isRooted sep p) (elements sep dot p) :=
    elements_render _ (hn.isElement hsd)
  exact ⟨he, he ▸ hn⟩

omit [DecidableEq α] in
theorem head?_intercalate {e : List α} {es : List (List α)} (he : e ≠ []) :
    ([sep].intercalate (e :: es)).head? = e.head? := by
  obtain ⟨x, xs, rfl⟩ := List.exists_cons_of_ne_nil he
  cases es with
  | nil => simp
  | cons f fs => simp [List.intercalate_cons_cons]

theorem isRooted_render (hsd : sep ≠ dot) (b : Bool) {es : List (List α)}
    (hes : ∀ e ∈ es, IsElement sep dot e) : isRooted sep (render sep dot b es) = b := by
  cases b with
  | true => simp [render, isRooted]
  | false =>
    cases es with
    | nil => simpa [render, isRooted] using fun h => hsd h.symm
    | cons e es =>
      have he := hes e List.mem_cons_self
      obtain ⟨x, xs, hx⟩ := List.exists_cons_of_ne_nil he.ne_nil
      have hxs : x ≠ sep := by
        rintro rfl
        exact he.sep_free (by simp [hx])
      simpa [render, isRooted, head?_intercalate he.ne_nil, hx] using hxs

theorem clean_eq_render (hsd : sep ≠ dot) (p : List α) :
    clean sep dot p =
      render sep dot (isRooted sep p) (elements sep dot (clean sep dot p)) := by
  rw [(normal_elements_clean hsd p).1]
  rfl

/-- A path in normal form is left as it is. -/
theorem clean_render (hsd : sep ≠ dot) {b : Bool} {es : List (List α)}
    (h : Normal sep dot b es) : clean sep dot (render sep dot b es) = render sep dot b es := by
  rw [clean, isRooted_render hsd b (h.isElement hsd), elements_render b (h.isElement hsd),
    resolve_normal h]

theorem flatMap_elements_filter (ps : List (List α)) :
    (ps.filter (· ≠ [])).flatMap (elements sep dot) = ps.flatMap (elements sep dot) := by
  induction ps with
  | nil => rfl
  | cons p ps ih =>
    by_cases hp : p = []
    · simpa [hp] using ih
    · simpa [hp] using ih

/-- Joining to a rooted path appends the elements and resolves them at the root. -/
theorem join_of_rooted {p : List α} (hp : isRooted sep p = true) (ps : List (List α)) :
    join sep dot (p :: ps) =
      render sep dot true (resolve dot true ((p :: ps).flatMap (elements sep dot))) := by
  have hne : p ≠ [] := by
    rintro rfl
    simp [isRooted] at hp
  have hf : (p :: ps).filter (· ≠ []) = p :: ps.filter (· ≠ []) := by simp [hne]
  have hr : isRooted sep ([sep].intercalate (p :: ps.filter (· ≠ []))) = true := by
    rw [isRooted, head?_intercalate hne]
    exact hp
  rw [join, hf, if_neg (List.cons_ne_nil _ _), clean, hr, elements_intercalate, ← hf,
    flatMap_elements_filter]

end Ecos.Go.Path
