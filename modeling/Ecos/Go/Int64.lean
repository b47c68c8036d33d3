import Ecos.Go.Strings

namespace Ecos.Go

theorem toInt_add_word (a b : Int64) : ∃ k : ℤ, (a + b).toInt = a.toInt + b.toInt + k * 2 ^ 64 := by
  rw [Int64.toInt_add, Int.bmod_def]
  split_ifs
  · exact ⟨-((a.toInt + b.toInt) / 2 ^ 64), by push_cast; omega⟩
  · exact ⟨-((a.toInt + b.toInt) / 2 ^ 64) - 1, by push_cast; omega⟩

theorem toInt_sub_word (a b : Int64) : ∃ k : ℤ, (a - b).toInt = a.toInt - b.toInt + k * 2 ^ 64 := by
  obtain ⟨k, hk⟩ := toInt_add_word (a - b) b
  rw [Int64.sub_add_cancel] at hk
  exact ⟨-k, by omega⟩

theorem toInt_toInt64 {size : UInt64} {n : ℕ} (h : size.toNat = n) (hlt : n < 2 ^ 63) :
    size.toInt64.toInt = n := by
  rw [← UInt64.ofNat_toNat (x := size), UInt64.toInt64_ofNat', h, Int64.toInt_ofNat_of_lt hlt]

/-- A sum that fits in the word. -/
theorem toInt_add_of_fits {a b : Int64} (hle : -2 ^ 63 ≤ a.toInt + b.toInt)
    (hlt : a.toInt + b.toInt < 2 ^ 63) : (a + b).toInt = a.toInt + b.toInt := by
  obtain ⟨k, hk⟩ := toInt_add_word a b
  have := (a + b).le_toInt
  have := (a + b).toInt_lt
  omega

theorem toInt_sub_of_fits {a b : Int64} (hle : -2 ^ 63 ≤ a.toInt - b.toInt)
    (hlt : a.toInt - b.toInt < 2 ^ 63) : (a - b).toInt = a.toInt - b.toInt := by
  obtain ⟨k, hk⟩ := toInt_sub_word a b
  have := (a - b).le_toInt
  have := (a - b).toInt_lt
  omega

/-- A word that is not negative is the same as an unsigned one. -/
theorem toNat_toUInt64_of_nonneg {x : Int64} (h : 0 ≤ x.toInt) :
    (x.toUInt64.toNat : ℤ) = x.toInt := by
  have hx : x.toInt = x.toUInt64.toBitVec.toInt := rfl
  have hlt := x.toUInt64.toNat_lt
  rw [hx, BitVec.toInt_eq_toNat_cond] at h ⊢
  simp only [UInt64.toNat_toBitVec] at h ⊢
  split_ifs at h ⊢ with hc
  · rfl
  · omega

/-- The sum of two words that are not negative does not wrap as an unsigned word. -/
theorem toNat_toUInt64_add {x y : Int64} (hx : 0 ≤ x.toInt) (hy : 0 ≤ y.toInt) :
    ((x + y).toUInt64.toNat : ℤ) = x.toInt + y.toInt := by
  have hxn := toNat_toUInt64_of_nonneg hx
  have hyn := toNat_toUInt64_of_nonneg hy
  have := x.toInt_lt
  have := y.toInt_lt
  rw [Int64.toUInt64_add, UInt64.toNat_add]
  omega

/-- `strconv.ParseInt` in base ten. -/
def parseInt (s : Bytes) : Option Int64 := (atoi s).map Int64.ofInt

end Ecos.Go
