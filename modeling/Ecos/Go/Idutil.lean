import Mathlib.Tactic

namespace Ecos.Go.Idutil

def lowbit (x n : UInt64) : UInt64 := x &&& (0xFFFFFFFFFFFFFFFF >>> (64 - n))

structure Generator where
  memberBits : UInt64
  suffix : UInt64
  deriving DecidableEq, Repr

def newGenerator (memberID : UInt16) (unixMilli : UInt64) : Generator where
  memberBits := memberID.toUInt64 <<< 48
  suffix := lowbit unixMilli 40 <<< 8

namespace Generator

def next (g : Generator) : UInt64 × Generator :=
  let suffix := g.suffix + 1
  (g.memberBits ||| lowbit suffix 48, { g with suffix })

/-- The generator after this many calls of `next`. -/
def after (g : Generator) (calls : ℕ) : Generator :=
  { g with suffix := g.suffix + UInt64.ofNat calls }

/-- The ID of the call that has `i` calls before it. -/
def nth (g : Generator) (i : ℕ) : UInt64 := (g.after i).next.1

theorem after_zero (g : Generator) : g.after 0 = g := by
  simp [after]

theorem next_after (g : Generator) (i : ℕ) : (g.after i).next = (g.nth i, g.after (i + 1)) := by
  have hsum : g.suffix + UInt64.ofNat i + 1 = g.suffix + UInt64.ofNat (i + 1) := by
    rw [UInt64.ofNat_add, UInt64.add_assoc]
    rfl
  exact Prod.ext rfl (congrArg (Generator.mk g.memberBits) hsum)

end Generator

theorem toNat_lowbit_48 (x : UInt64) : (lowbit x 48).toNat = x.toNat % 2 ^ 48 := by
  rw [lowbit, UInt64.toNat_and]
  exact Nat.and_two_pow_sub_one_eq_mod x.toNat 48

theorem toNat_lowbit_40 (x : UInt64) : (lowbit x 40).toNat = x.toNat % 2 ^ 40 := by
  rw [lowbit, UInt64.toNat_and]
  exact Nat.and_two_pow_sub_one_eq_mod x.toNat 40

/-- An ID is the member ID and, modulo `2 ^ 48`, 256 times the start time plus the number of the
call. -/
theorem toNat_nth (memberID : UInt16) (unixMilli : UInt64) (i : ℕ) :
    ((newGenerator memberID unixMilli).nth i).toNat =
      memberID.toNat * 2 ^ 48 + (256 * unixMilli.toNat + (i + 1)) % 2 ^ 48 := by
  have hmember : (memberID.toUInt64 <<< (48 : UInt64)).toNat = memberID.toNat <<< 48 := by
    have hlt := memberID.toNat_lt
    rw [UInt64.toNat_shiftLeft, UInt16.toNat_toUInt64]
    show memberID.toNat <<< 48 % 2 ^ 64 = _
    rw [Nat.mod_eq_of_lt]
    rw [Nat.shiftLeft_eq]
    omega
  have hsuffix : (lowbit unixMilli 40 <<< (8 : UInt64)).toNat = 256 * (unixMilli.toNat % 2 ^ 40) := by
    rw [UInt64.toNat_shiftLeft, toNat_lowbit_40]
    show (unixMilli.toNat % 2 ^ 40) <<< 8 % 2 ^ 64 = _
    rw [Nat.shiftLeft_eq]
    omega
  have hlow : (lowbit (lowbit unixMilli 40 <<< 8 + UInt64.ofNat i + 1) 48).toNat =
      (256 * unixMilli.toNat + (i + 1)) % 2 ^ 48 := by
    rw [toNat_lowbit_48, UInt64.toNat_add, UInt64.toNat_add, hsuffix, UInt64.toNat_ofNat']
    show ((256 * (unixMilli.toNat % 2 ^ 40) + i % 2 ^ 64) % 2 ^ 64 + 1) % 2 ^ 64 % 2 ^ 48 = _
    omega
  show ((memberID.toUInt64 <<< (48 : UInt64)) |||
    lowbit (lowbit unixMilli 40 <<< 8 + UInt64.ofNat i + 1) 48).toNat = _
  rw [UInt64.toNat_or, hmember, hlow,
    ← Nat.shiftLeft_add_eq_or_of_lt (Nat.mod_lt _ (by norm_num)), Nat.shiftLeft_eq]

/-- Two IDs are the same only if they are of one member and, for one start time, of one call. -/
theorem nth_inj {memberID memberID' : UInt16} {start start' : UInt64} {i j : ℕ}
    (hi : i < 2 ^ 48) (hj : j < 2 ^ 48)
    (h : (newGenerator memberID start).nth i = (newGenerator memberID' start').nth j) :
    memberID = memberID' ∧ (start = start' → i = j) := by
  have hnat := congrArg UInt64.toNat h
  rw [toNat_nth, toNat_nth] at hnat
  constructor
  · apply UInt16.toNat_inj.mp
    omega
  · rintro rfl
    omega

end Ecos.Go.Idutil
