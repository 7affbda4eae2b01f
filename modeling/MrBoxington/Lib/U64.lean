import Mathlib.Data.Nat.Basic
import Mathlib.Algebra.Order.Group.Unbundled.Basic
import Mathlib.Algebra.BigOperators.Group.List.Basic
import Mathlib.Tactic.Common

/-!
# Checked and saturating arithmetic on unsigned 64-bit words

Budget arithmetic on machine words either refuses an overflow (`checked_*`) or
clamps it at the largest word (`saturating_*`). Every operation here comes with
its exact value in the natural numbers, so that later proofs never mention the
wrap-around of the underlying type.
-/

namespace U64

/-- The largest unsigned 64-bit word. -/
def max : UInt64 := 18446744073709551615

@[simp] private theorem toNat_max : max.toNat = 18446744073709551615 := rfl

theorem toNat_le_max (a : UInt64) : a.toNat ≤ 18446744073709551615 := by
  have h := a.toNat_lt
  omega

/-- Addition that refuses an overflow. -/
def checkedAdd (a b : UInt64) : Option UInt64 :=
  if a.toNat + b.toNat < 2 ^ 64 then some (a + b) else none

/-- Subtraction that refuses a negative result. -/
def checkedSub (a b : UInt64) : Option UInt64 :=
  if b.toNat ≤ a.toNat then some (a - b) else none

/-- Multiplication that refuses an overflow. -/
def checkedMul (a b : UInt64) : Option UInt64 :=
  if a.toNat * b.toNat < 2 ^ 64 then some (a * b) else none

/-- Addition clamped at the largest word. -/
def saturatingAdd (a b : UInt64) : UInt64 := (checkedAdd a b).getD max

/-- Multiplication clamped at the largest word. -/
def saturatingMul (a b : UInt64) : UInt64 := (checkedMul a b).getD max

/-- Subtraction clamped at zero. -/
def saturatingSub (a b : UInt64) : UInt64 := (checkedSub a b).getD 0

/-- The quotient rounded up. -/
def divCeil (a b : UInt64) : UInt64 := if a % b = 0 then a / b else a / b + 1

/-- Checked addition answers exactly where the sum fits. -/
theorem checkedAdd_eq_some {a b c : UInt64} :
    checkedAdd a b = some c ↔ a.toNat + b.toNat = c.toNat := by
  unfold checkedAdd
  split
  · rename_i hlt
    rw [Option.some.injEq, ← UInt64.toNat_inj, UInt64.toNat_add, Nat.mod_eq_of_lt hlt]
  · rename_i hge
    have hc := c.toNat_lt
    simp only [reduceCtorEq, false_iff]
    omega

/-- Checked subtraction answers exactly where nothing is borrowed. -/
theorem checkedSub_eq_some {a b c : UInt64} :
    checkedSub a b = some c ↔ a.toNat = b.toNat + c.toNat := by
  unfold checkedSub
  split
  · rename_i hle
    rw [Option.some.injEq, ← UInt64.toNat_inj,
      UInt64.toNat_sub_of_le _ _ (UInt64.le_iff_toNat_le.mpr hle)]
    omega
  · rename_i hlt
    simp only [reduceCtorEq, false_iff]
    omega

/-- Checked multiplication answers exactly where the product fits. -/
theorem checkedMul_eq_some {a b c : UInt64} :
    checkedMul a b = some c ↔ a.toNat * b.toNat = c.toNat := by
  unfold checkedMul
  split
  · rename_i hlt
    rw [Option.some.injEq, ← UInt64.toNat_inj, UInt64.toNat_mul, Nat.mod_eq_of_lt hlt]
  · rename_i hge
    have hc := c.toNat_lt
    simp only [reduceCtorEq, false_iff]
    omega

@[simp] theorem toNat_saturatingAdd (a b : UInt64) :
    (saturatingAdd a b).toNat = min (a.toNat + b.toNat) 18446744073709551615 := by
  unfold saturatingAdd checkedAdd
  split
  · rename_i hlt
    rw [Option.getD_some, UInt64.toNat_add, Nat.mod_eq_of_lt hlt]
    omega
  · rename_i hge
    rw [Option.getD_none, toNat_max]
    omega

@[simp] theorem toNat_saturatingSub (a b : UInt64) :
    (saturatingSub a b).toNat = a.toNat - b.toNat := by
  unfold saturatingSub checkedSub
  split
  · rename_i hle
    rw [Option.getD_some, UInt64.toNat_sub_of_le _ _ (UInt64.le_iff_toNat_le.mpr hle)]
  · rename_i hlt
    rw [Option.getD_none, UInt64.toNat_zero]
    omega

/-- The rounded-up quotient is the least number whose multiple covers the
dividend. -/
theorem toNat_divCeil {a b : UInt64} (hb : 0 < b.toNat) :
    (divCeil a b).toNat = (a.toNat + b.toNat - 1) / b.toNat := by
  have ha := a.toNat_lt
  have hdiv := Nat.div_add_mod a.toNat b.toNat
  have hmod := Nat.mod_lt a.toNat hb
  unfold divCeil
  split
  · rename_i hzero
    have hzero' : a.toNat % b.toNat = 0 := by
      simpa using congrArg UInt64.toNat hzero
    rw [UInt64.toNat_div]
    symm
    rw [Nat.div_eq_iff hb]
    rw [hzero', Nat.add_zero, Nat.mul_comm] at hdiv
    omega
  · rename_i hne
    have hne' : a.toNat % b.toNat ≠ 0 := by
      intro h
      exact hne (UInt64.toNat_inj.mp (by simpa using h))
    have hquot : a.toNat / b.toNat + 1 < 2 ^ 64 := by
      rcases Nat.lt_or_ge 1 b.toNat with h1 | h1
      · have hpos : 0 < a.toNat := by
          rcases Nat.eq_zero_or_pos a.toNat with h0 | h0
          · simp [h0] at hne'
          · exact h0
        have := Nat.div_lt_self hpos h1
        omega
      · have : b.toNat = 1 := by omega
        simp [this, Nat.mod_one] at hne'
    rw [UInt64.toNat_add, UInt64.toNat_div, UInt64.toNat_one, Nat.mod_eq_of_lt hquot]
    symm
    rw [Nat.div_eq_iff hb, Nat.add_mul, Nat.one_mul]
    rw [Nat.mul_comm] at hdiv
    omega

end U64
