import Mathlib.Algebra.BigOperators.Group.List.Lemmas
import Mathlib.Algebra.Order.BigOperators.Group.List
import Mathlib.Algebra.Order.Ring.Nat

/-!
# Charges under a ceiling with an exception for lone work

Charges stay within a ceiling, except that a single non-zero charge of any size
may stand alone. The exception lets oversize work run without ever letting it
share the budget.
-/

namespace Budget

/-- The charges sum to at most the ceiling, or at most one of them is non-zero. -/
def Bounded (ceiling : ℕ) (charges : List ℕ) : Prop :=
  charges.sum ≤ ceiling ∨ (charges.filter (fun charge => decide (charge ≠ 0))).length ≤ 1

theorem Bounded.nil (ceiling : ℕ) : Bounded ceiling [] := Or.inl (Nat.zero_le _)

/-- Fewer charges stay bounded. -/
theorem Bounded.sublist {ceiling : ℕ} {charges kept : List ℕ} (hbounded : Bounded ceiling charges)
    (hsub : kept.Sublist charges) : Bounded ceiling kept := by
  rcases hbounded with hsum | hlone
  · exact Or.inl ((hsub.sum_le_sum (fun _ _ => Nat.zero_le _)).trans hsum)
  · exact Or.inr ((hsub.filter _).length_le.trans hlone)

/-- The order of the charges does not matter. -/
theorem Bounded.perm {ceiling : ℕ} {charges other : List ℕ} (hbounded : Bounded ceiling charges)
    (hperm : charges.Perm other) : Bounded ceiling other := by
  rcases hbounded with hsum | hlone
  · exact Or.inl (hperm.sum_eq ▸ hsum)
  · exact Or.inr ((hperm.filter _).length_eq ▸ hlone)

private theorem filter_eq_nil_of_sum_eq_zero {charges : List ℕ} (hsum : charges.sum = 0) :
    charges.filter (fun charge => decide (charge ≠ 0)) = [] := by
  rw [List.filter_eq_nil_iff]
  intro charge hmem
  have hle := List.single_le_sum (fun _ _ => Nat.zero_le _) charge hmem
  have hzero : charge = 0 := by omega
  simp [hzero]

private theorem sum_filter_ne_zero (charges : List ℕ) :
    (charges.filter (fun charge => decide (charge ≠ 0))).sum = charges.sum := by
  induction charges with
  | nil => rfl
  | cons charge charges ih =>
    by_cases hzero : charge = 0
    · simpa [hzero] using ih
    · simpa [hzero] using ih

/-- Bounded charges that fit one by one fit together. -/
theorem Bounded.sum_le {ceiling limit : ℕ} {charges : List ℕ} (hbounded : Bounded ceiling charges)
    (hceiling : ceiling ≤ limit) (hcharges : ∀ charge ∈ charges, charge ≤ limit) :
    charges.sum ≤ limit := by
  rcases hbounded with hsum | hlone
  · omega
  · rw [← sum_filter_ne_zero]
    have hmem : ∀ charge ∈ charges.filter (fun charge => decide (charge ≠ 0)),
        charge ≤ limit := fun charge h => hcharges charge (List.mem_filter.mp h).1
    cases hfilter : charges.filter (fun charge => decide (charge ≠ 0)) with
    | nil => simp
    | cons first rest =>
      rw [hfilter] at hmem hlone
      have hrest : rest = [] := by
        rw [← List.length_eq_zero_iff]
        simpa using hlone
      subst hrest
      simpa using hmem first (by simp)

/-- One more charge is admitted when nothing is held or the total stays within
the ceiling. -/
theorem Bounded.cons {ceiling charge : ℕ} {charges : List ℕ}
    (hfits : charges.sum = 0 ∨ charges.sum + charge ≤ ceiling) :
    Bounded ceiling (charge :: charges) := by
  rcases hfits with hempty | hroom
  · right
    rw [List.filter_cons, filter_eq_nil_of_sum_eq_zero hempty]
    split <;> simp
  · left
    rw [List.sum_cons]
    omega

end Budget
