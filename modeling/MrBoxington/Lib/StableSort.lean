import Mathlib.Data.List.MinMax
import Mathlib.Data.List.Sort

/-!
# The first of a stable sort

A list that is sorted with the deepest items first, where ties keep their order, is searched for
the first item with a property: this finds the first of the deepest items with the property.
-/

namespace StableSort

variable {α : Type*} {depth : α → ℕ} {wanted : α → Bool} {item : α} {items : List α}

private theorem find_orderedInsert
    (hsorted : items.Pairwise fun left right => depth right ≤ depth left) :
    (items.orderedInsert (fun left right => depth right ≤ depth left) item).find? wanted =
      if wanted item then
        (items.find? wanted).elim (some item) fun found =>
          if depth item < depth found then some found else some item
      else items.find? wanted := by
  induction items with
  | nil => cases hwanted : wanted item <;> simp [hwanted]
  | cons first rest ih =>
    obtain ⟨hfirst, hrest⟩ := List.pairwise_cons.mp hsorted
    rw [List.orderedInsert_cons]
    by_cases hle : depth first ≤ depth item
    · rw [if_pos hle, List.find?_cons]
      cases hwanted : wanted item with
      | false => simp
      | true =>
        cases hfound : (first :: rest).find? wanted with
        | none => simp
        | some found =>
          have hdepth : depth found ≤ depth first := by
            rcases List.mem_cons.mp (List.mem_of_find?_eq_some hfound) with rfl | hmem
            · exact Nat.le_refl _
            · exact hfirst found hmem
          simp [show ¬ depth item < depth found by omega]
    · rw [if_neg hle, List.find?_cons, List.find?_cons]
      cases hwanted : wanted first with
      | true => simp [show depth item < depth first by omega]
      | false => exact ih hrest

/-- The first match after a stable sort is the deepest match. -/
theorem find_insertionSort :
    (items.insertionSort fun left right => depth right ≤ depth left).find? wanted =
      (items.filter wanted).argmax depth := by
  induction items with
  | nil => rfl
  | cons first rest ih =>
    have hsorted : (rest.insertionSort fun left right => depth right ≤ depth left).Pairwise
        fun left right => depth right ≤ depth left :=
      have : Std.Total fun left right => depth right ≤ depth left :=
        ⟨fun left right => Nat.le_total (depth right) (depth left)⟩
      have : IsTrans α fun left right => depth right ≤ depth left :=
        ⟨fun _ _ _ hleft hright => Nat.le_trans hright hleft⟩
      List.pairwise_insertionSort _ rest
    rw [List.insertionSort_cons, find_orderedInsert hsorted, ih, List.filter_cons]
    cases wanted first with
    | false => rfl
    | true =>
      simp only [if_true, List.argmax_cons]
      cases (rest.filter wanted).argmax depth <;> rfl

end StableSort
