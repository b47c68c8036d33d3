import Mathlib.Data.List.TakeWhile
import Ecos.Go.Path

namespace Ecos.Go

abbrev Bytes := List UInt8

instance lawfulBEqBytes : LawfulBEq Bytes := inferInstanceAs (LawfulBEq (List UInt8))

def ascii (cs : List Char) : Bytes := cs.map fun c => UInt8.ofNat c.toNat

section Cut
variable {α : Type*} [DecidableEq α]

def trimPrefix (pre s : List α) : List α := if pre <+: s then s.drop pre.length else s

def trim (c : α) (s : List α) : List α :=
  ((s.dropWhile (· = c)).reverse.dropWhile (· = c)).reverse

/-- At most `n` substrings, the last one being the unsplit rest. -/
def splitN (sep : α) : ℕ → List α → List (List α)
  | 0, _ => []
  | 1, s => [s]
  | n + 2, s =>
    if sep ∈ s then
      s.takeWhile (· ≠ sep) :: splitN sep (n + 1) (s.dropWhile (· ≠ sep)).tail
    else [s]

variable {sep : α}

@[simp] theorem trimPrefix_singleton_cons (s : List α) : trimPrefix [sep] (sep :: s) = s := by
  simp [trimPrefix, List.cons_prefix_cons]

theorem trimPrefix_singleton_of_head {s : List α} (h : s.head? ≠ some sep) :
    trimPrefix [sep] s = s := by
  have hp : ¬ [sep] <+: s := by
    rintro ⟨t, rfl⟩
    simp at h
  rw [trimPrefix, if_neg hp]

theorem cut_append {p : List α} (hp : sep ∉ p) (r : List α) :
    (p ++ sep :: r).takeWhile (· ≠ sep) = p ∧
      ((p ++ sep :: r).dropWhile (· ≠ sep)).tail = r := by
  have ht : p.takeWhile (· ≠ sep) = p := by
    rw [List.takeWhile_eq_self_iff]
    intro x hx
    have hne : x ≠ sep := fun h => hp (h ▸ hx)
    simpa using hne
  have hd : p.dropWhile (· ≠ sep) = [] := by
    rw [List.dropWhile_eq_nil_iff]
    intro x hx
    have hne : x ≠ sep := fun h => hp (h ▸ hx)
    simpa using hne
  constructor
  · rw [List.takeWhile_append, if_pos (by rw [ht])]
    simp
  · rw [List.dropWhile_append, hd]
    simp

/-- Splitting after as many parts as there are leaves the rest in one piece. -/
theorem splitN_intercalate_append {ns : List (List α)} (hne : ns ≠ [])
    (hns : ∀ e ∈ ns, sep ∉ e) (r : List α) :
    splitN sep (ns.length + 1) ([sep].intercalate ns ++ sep :: r) = ns ++ [r] := by
  induction ns with
  | nil => exact absurd rfl hne
  | cons n ns ih =>
    have hn : sep ∉ n := hns n List.mem_cons_self
    cases ns with
    | nil =>
      obtain ⟨h1, h2⟩ := cut_append hn r
      rw [List.intercalate_singleton, List.length_singleton, splitN, if_pos (by simp), h1, h2]
      rfl
    | cons m ms =>
      have he : [sep].intercalate (n :: m :: ms) ++ sep :: r =
          n ++ sep :: ([sep].intercalate (m :: ms) ++ sep :: r) := by
        simp [List.intercalate_cons_cons]
      obtain ⟨h1, h2⟩ := cut_append hn ([sep].intercalate (m :: ms) ++ sep :: r)
      rw [he, List.length_cons, List.length_cons, splitN, if_pos (by simp), h1, h2]
      exact congrArg (List.cons n)
        (ih (by simp) fun e h => hns e (List.mem_cons_of_mem _ h))

theorem elements_dropWhile_sep (dot : α) (p : List α) :
    Path.elements sep dot (p.dropWhile (· = sep)) = Path.elements sep dot p := by
  induction p with
  | nil => rfl
  | cons a p ih =>
    by_cases ha : a = sep
    · subst ha
      simpa using ih
    · simp [ha]

theorem elements_dropWhile_sep_reverse (dot : α) (p : List α) :
    Path.elements sep dot (p.reverse.dropWhile (· = sep)).reverse = Path.elements sep dot p := by
  induction p using List.reverseRecOn with
  | nil => rfl
  | append_singleton p a ih =>
    by_cases ha : a = sep
    · subst ha
      simpa using ih
    · simp [ha]

/-- Trimming separators does not change the elements of a path. -/
theorem elements_trim (dot : α) (p : List α) :
    Path.elements sep dot (trim sep p) = Path.elements sep dot p := by
  rw [trim, elements_dropWhile_sep_reverse, elements_dropWhile_sep]

theorem isRooted_trim (p : List α) : Path.isRooted sep (trim sep p) = false := by
  have hq : (p.dropWhile (· = sep)).head? ≠ some sep := by
    intro h
    have hd := List.head?_dropWhile_not (fun x => decide (x = sep)) p
    rw [h] at hd
    simp at hd
  have hpre : trim sep p <+: p.dropWhile (· = sep) := by
    have h := List.dropWhile_suffix (· = sep) (l := (p.dropWhile (· = sep)).reverse)
    simpa [trim] using List.reverse_prefix.mpr h
  cases ht : trim sep p with
  | nil => rfl
  | cons x xs =>
    rw [ht] at hpre
    obtain ⟨t, ht'⟩ := hpre
    rw [← ht'] at hq
    simpa [Path.isRooted] using hq

end Cut

def isDigit (b : UInt8) : Bool := decide (48 ≤ b ∧ b ≤ 57)

def formatNat (n : ℕ) : Bytes := (Nat.toDigits 10 n).map fun c => UInt8.ofNat c.toNat

/-- `strconv.FormatInt` in base ten. -/
def formatInt : ℤ → Bytes
  | .ofNat n => formatNat n
  | .negSucc n => 45 :: formatNat (n + 1)

def parseDigits (s : Bytes) : Option ℕ :=
  if s ≠ [] ∧ s.all isDigit then some (s.foldl (fun n b => 10 * n + (b.toNat - 48)) 0) else none

def parseSigned : Bytes → Option ℤ
  | 45 :: s => (parseDigits s).map fun n : ℕ => -(n : ℤ)
  | 43 :: s => (parseDigits s).map fun n : ℕ => (n : ℤ)
  | s => (parseDigits s).map fun n : ℕ => (n : ℤ)

/-- `strconv.Atoi`: values outside the 64-bit range are errors. -/
def atoi (s : Bytes) : Option ℤ :=
  (parseSigned s).filter fun i => decide (-2 ^ 63 ≤ i ∧ i < 2 ^ 63)

theorem toNat_digit {c : Char} (h : c.isDigit) : (UInt8.ofNat c.toNat).toNat = c.toNat := by
  rw [Char.isDigit_iff_toNat] at h
  apply UInt8.toNat_ofNat_of_lt
  have h9 : '9'.toNat = 57 := rfl
  have : UInt8.size = 256 := rfl
  omega

theorem isDigit_digit {c : Char} (h : c.isDigit) : isDigit (UInt8.ofNat c.toNat) = true := by
  have hn := toNat_digit h
  rw [Char.isDigit_iff_toNat] at h
  have h0 : '0'.toNat = 48 := rfl
  have h9 : '9'.toNat = 57 := rfl
  simp only [isDigit, decide_eq_true_eq, UInt8.le_iff_toNat_le, hn]
  exact ⟨by simpa [h0] using h.1, by simpa [h9] using h.2⟩

theorem isDigit_of_mem_formatNat {n : ℕ} {b : UInt8} (hb : b ∈ formatNat n) :
    isDigit b = true := by
  obtain ⟨c, hc, rfl⟩ := List.mem_map.mp hb
  exact isDigit_digit (Nat.isDigit_of_mem_toDigits (by decide) (by decide) hc)

theorem formatNat_ne_nil (n : ℕ) : formatNat n ≠ [] := by
  simp [formatNat, Nat.toDigits_ne_nil]

theorem foldl_digits {cs : List Char} (h : ∀ c ∈ cs, c.isDigit) (n : ℕ) :
    (cs.map fun c => UInt8.ofNat c.toNat).foldl (fun n b => 10 * n + (b.toNat - 48)) n =
      Nat.ofDigitChars 10 cs n := by
  induction cs generalizing n with
  | nil => simp
  | cons c cs ih =>
    rw [List.map_cons, List.foldl_cons, toNat_digit (h c List.mem_cons_self),
      ih (fun x hx => h x (List.mem_cons_of_mem _ hx)), Nat.ofDigitChars_cons]
    rfl

theorem parseDigits_formatNat (n : ℕ) : parseDigits (formatNat n) = some n := by
  have hd : (formatNat n).all isDigit := List.all_eq_true.mpr fun _ h => isDigit_of_mem_formatNat h
  rw [parseDigits, if_pos ⟨formatNat_ne_nil n, hd⟩, formatNat,
    foldl_digits fun _ h => Nat.isDigit_of_mem_toDigits (by decide) (by decide) h,
    Nat.ofDigitChars_ten_toDigits]

theorem parseSigned_formatInt (i : ℤ) : parseSigned (formatInt i) = some i := by
  cases i with
  | negSucc n =>
    rw [formatInt, parseSigned, parseDigits_formatNat, Option.map_some]
    rfl
  | ofNat n =>
    have hs : parseSigned (formatNat n) = (parseDigits (formatNat n)).map fun n : ℕ => (n : ℤ) := by
      -- a digit is neither of the two signs
      obtain ⟨b, bs, hb⟩ := List.exists_cons_of_ne_nil (formatNat_ne_nil n)
      have hd : isDigit b = true := isDigit_of_mem_formatNat (n := n) (by rw [hb]; simp)
      have h45 : b ≠ 45 := by rintro rfl; exact absurd hd (by decide)
      have h43 : b ≠ 43 := by rintro rfl; exact absurd hd (by decide)
      rw [hb, parseSigned]
      · simpa using h45
      · simpa using h43
    rw [formatInt, hs, parseDigits_formatNat]
    rfl

theorem atoi_formatInt {i : ℤ} (h : -2 ^ 63 ≤ i ∧ i < 2 ^ 63) : atoi (formatInt i) = some i := by
  rw [atoi, parseSigned_formatInt, Option.filter_some, if_pos (by simpa using h)]

theorem mem_formatInt {i : ℤ} {b : UInt8} (hb : b ∈ formatInt i) : b = 45 ∨ isDigit b = true := by
  cases i with
  | ofNat n => exact Or.inr (isDigit_of_mem_formatNat hb)
  | negSucc n =>
    rcases List.mem_cons.mp hb with h | h
    · exact Or.inl h
    · exact Or.inr (isDigit_of_mem_formatNat h)

theorem formatInt_ne_nil (i : ℤ) : formatInt i ≠ [] := by
  cases i with
  | ofNat n => exact formatNat_ne_nil n
  | negSucc n => exact List.cons_ne_nil _ _

/-- No character of a decimal integer is a slash or a dot. -/
theorem isName_formatInt (i : ℤ) : Path.IsName (47 : UInt8) 46 (formatInt i) := by
  have hc : ∀ b, isDigit b = false → b ≠ 45 → b ∉ formatInt i := by
    intro b hd hb hm
    rcases mem_formatInt hm with h | h
    · exact hb h
    · rw [hd] at h
      exact Bool.false_ne_true h
  have hdot : (46 : UInt8) ∉ formatInt i := hc 46 (by decide) (by decide)
  refine ⟨⟨formatInt_ne_nil i, hc 47 (by decide) (by decide), ?_⟩, ?_⟩
  · intro h
    exact hdot (by simp [h])
  · intro h
    exact hdot (by simp [h, Path.up])

end Ecos.Go
