import Mathlib.Algebra.BigOperators.Group.List.Lemmas
import Mathlib.Algebra.Order.BigOperators.Group.List
import Mathlib.Algebra.Order.Ring.Nat
import Mathlib.Data.List.Perm.Subperm
import MrBoxington.Lib.Bitset

/-!
# The sums of all sub-collections of a list

The set of sums that sub-collections of a list of weights can reach, and its
packed form: starting from the set `{0}` and adding one shifted copy for each
weight produces exactly the reachable sums.
-/

namespace SubsetSums

/-- The sums reached by the sub-collections of `weights`. -/
def reachable (weights : List ℕ) : Set ℕ :=
  {s | ∃ chosen : List ℕ, chosen.Sublist weights ∧ chosen.sum = s}

private theorem mem_reachable_nil {s : ℕ} : s ∈ reachable [] ↔ s = 0 := by
  constructor
  · rintro ⟨chosen, hsub, rfl⟩
    rw [List.sublist_nil.mp hsub, List.sum_nil]
  · rintro rfl
    exact ⟨[], List.Sublist.refl _, rfl⟩

private theorem mem_reachable_append_singleton {weights : List ℕ} {w s : ℕ} :
    s ∈ reachable (weights ++ [w]) ↔
      s ∈ reachable weights ∨ (w ≤ s ∧ s - w ∈ reachable weights) := by
  constructor
  · rintro ⟨chosen, hsub, rfl⟩
    obtain ⟨left, right, rfl, hleft, hright⟩ := List.sublist_append_iff.mp hsub
    rcases List.sublist_singleton.mp hright with rfl | rfl
    · exact Or.inl ⟨left, hleft, by simp⟩
    · exact Or.inr ⟨by simp, left, hleft, by simp⟩
  · rintro (⟨chosen, hsub, rfl⟩ | ⟨hle, chosen, hsub, hsum⟩)
    · exact ⟨chosen, hsub.trans (List.sublist_append_left _ _), rfl⟩
    · exact ⟨chosen ++ [w], hsub.append (List.Sublist.refl _), by
        rw [List.sum_append, List.sum_singleton, hsum]
        omega⟩

theorem le_sum_of_mem_reachable {weights : List ℕ} {s : ℕ} (hs : s ∈ reachable weights) :
    s ≤ weights.sum := by
  obtain ⟨chosen, hsub, rfl⟩ := hs
  exact hsub.sum_le_sum (fun _ _ => Nat.zero_le _)

/-- The packed words hold exactly the members of `members` below their range. -/
def Packs (sums : List UInt64) (members : Set ℕ) : Prop :=
  ∀ i < 64 * sums.length, Bitset.testBit sums i = true ↔ i ∈ members

/-- The packed set `{0}`, in `words` machine words. -/
def zeroOnly (words : ℕ) : List UInt64 := (List.replicate words (0 : UInt64)).set 0 1

@[simp] theorem zeroOnly_length (words : ℕ) : (zeroOnly words).length = words := by
  simp [zeroOnly]

/-- Before any weight only the empty sum is reachable. -/
theorem zeroOnly_packs (words : ℕ) : Packs (zeroOnly words) (reachable []) := by
  intro i hi
  rw [zeroOnly_length] at hi
  rw [mem_reachable_nil]
  by_cases hword : i / 64 = 0
  · have hget : (zeroOnly words)[i / 64]? = some 1 := by
      simp [zeroOnly, hword, show 0 < words by omega]
    rw [Bitset.testBit, hget, Option.getD_some, UInt64.toNat_one,
      Nat.testBit_one_eq_true_iff_self_eq_zero]
    omega
  · have hget : (zeroOnly words)[i / 64]? = some 0 := by
      rw [zeroOnly, List.getElem?_set_ne (by omega), List.getElem?_replicate, if_pos (by omega)]
    rw [Bitset.testBit, hget, Option.getD_some, UInt64.toNat_zero, Nat.zero_testBit]
    simp only [Bool.false_eq_true, false_iff]
    omega

/-- The step lemma: one more weight is one more shift. -/
theorem Packs.addShifted {sums : List UInt64} {weights : List ℕ} {w : ℕ}
    (hpacks : Packs sums (reachable weights)) :
    Packs (Bitset.addShifted sums w) (reachable (weights ++ [w])) := by
  intro i hi
  rw [Bitset.addShifted_length] at hi
  rw [Bitset.testBit_addShifted sums w hi, mem_reachable_append_singleton, Bool.or_eq_true,
    Bool.and_eq_true, decide_eq_true_eq, hpacks i hi]
  by_cases hle : w ≤ i
  · rw [hpacks (i - w) (by omega)]
  · simp [hle]

/-- The run lemma: the words hold the sums of all weights. -/
theorem Packs.foldl {sums : List UInt64} {weights : List ℕ} (more : List ℕ)
    (hpacks : Packs sums (reachable weights)) :
    Packs (more.foldl Bitset.addShifted sums) (reachable (weights ++ more)) := by
  induction more generalizing sums weights with
  | nil => simpa using hpacks
  | cons w more ih =>
    have h := ih (hpacks.addShifted (w := w))
    rwa [List.append_assoc, List.singleton_append] at h

@[simp] theorem foldl_addShifted_length (more : List ℕ) (sums : List UInt64) :
    (more.foldl Bitset.addShifted sums).length = sums.length := by
  induction more generalizing sums with
  | nil => rfl
  | cons w more ih => rw [List.foldl_cons, ih, Bitset.addShifted_length]

end SubsetSums
