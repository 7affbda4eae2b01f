import Mathlib.Data.Int.Notation
import Mathlib.Data.Nat.Notation

/-!
# Signed words of 64 bits

Where the exact result fits, an operation on words is the one on integers. Each rule takes the
values of the operands, so that a computation is followed step by step.
-/

namespace I64

/-- The integer is one of a signed word. -/
def Fits (x : ℤ) : Prop :=
  -9223372036854775808 ≤ x ∧ x ≤ 9223372036854775807

private theorem bmod_eq {x : ℤ} (hfits : Fits x) : x.bmod 18446744073709551616 = x := by
  obtain ⟨hlow, hhigh⟩ := hfits
  exact Int.bmod_eq_of_le (by omega) (by omega)

variable {a b : Int64} {x y : ℤ}

/-- Addition is exact where the sum fits. -/
theorem toInt_add (ha : a.toInt = x) (hb : b.toInt = y) (hfits : Fits (x + y)) :
    (a + b).toInt = x + y := by
  rw [Int64.toInt_add, ha, hb]
  exact bmod_eq hfits

/-- Subtraction is exact where the difference fits. -/
theorem toInt_sub (ha : a.toInt = x) (hb : b.toInt = y) (hfits : Fits (x - y)) :
    (a - b).toInt = x - y := by
  rw [Int64.toInt_sub, ha, hb]
  exact bmod_eq hfits

/-- Multiplication is exact where the product fits. -/
theorem toInt_mul (ha : a.toInt = x) (hb : b.toInt = y) (hfits : Fits (x * y)) :
    (a * b).toInt = x * y := by
  rw [Int64.toInt_mul, ha, hb]
  exact bmod_eq hfits

/-- Division rounds towards zero, which is down where the dividend is not negative. -/
theorem toInt_div (ha : a.toInt = x) (hb : b.toInt = y) (hx : 0 ≤ x) (hfits : Fits (x / y)) :
    (a / b).toInt = x / y := by
  rw [Int64.toInt_div, ha, hb, Int.tdiv_eq_ediv_of_nonneg hx]
  exact bmod_eq hfits

/-- A word that holds a small natural number keeps it as one of 32 bits. -/
theorem toNat_toUInt32 {n : ℕ} (ha : a.toInt = n) (hn : n < 4294967296) :
    a.toUInt64.toUInt32.toNat = n := by
  have hle : 0 ≤ a := Int64.le_iff_toInt_le.mpr (ha ▸ Int.natCast_nonneg n)
  rw [UInt64.toNat_toUInt32, Int64.toNat_toUInt64_of_le hle, ← Int64.toNat_toInt, ha,
    Int.toNat_natCast]
  exact Nat.mod_eq_of_lt hn

theorem toInt_toInt64 {word : UInt64} (hword : word.toNat ≤ 9223372036854775807) :
    word.toInt64.toInt = word.toNat := by
  have hlt : 2 * word.toBitVec.toNat < 18446744073709551616 := by
    rw [UInt64.toNat_toBitVec]
    omega
  exact BitVec.toInt_eq_toNat_of_lt hlt

end I64
