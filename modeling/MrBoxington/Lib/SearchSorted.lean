import Mathlib.Data.List.Basic

/-!
# Searching a sorted table

A table is searched by reading its entries one at a time, halving the range in which an entry
with the key can be. If the entries are in the order of their keys, the search finds what a
search of all entries finds.
-/

namespace SearchSorted

variable {α : Type*} (key : α → ℕ) (target : ℕ)

/-- The search in a range; it ends if an entry cannot be read. -/
def search (read : ℕ → Option α) (low high : ℕ) : Option α :=
  if low < high then
    let middle := low + (high - low) / 2
    match read middle with
    | none => none
    | some entry =>
      if key entry < target then search read (middle + 1) high
      else if target < key entry then search read low middle
      else some entry
  else none
termination_by high - low

variable {key target} {entries : List α} {read : ℕ → Option α} {low high : ℕ}

/-- Entries outside the range do not have the key. -/
def Outside (key : α → ℕ) (target : ℕ) (entries : List α) (low high : ℕ) : Prop :=
  ∀ index entry, entries[index]? = some entry → key entry = target → low ≤ index ∧ index < high

/-- On sorted entries the binary search finds what a scan finds. -/
theorem search_eq_find (hsorted : entries.Pairwise (key · < key ·))
    (hread : ∀ index < entries.length, read index = entries[index]?)
    (hhigh : high ≤ entries.length) (houtside : Outside key target entries low high) :
    search key target read low high = entries.find? fun entry => decide (key entry = target) := by
  have hless : ∀ (i j : ℕ) left right, entries[i]? = some left → entries[j]? = some right → i < j →
      key left < key right := by
    intro i j left right hleft hright hij
    obtain ⟨hi, rfl⟩ := List.getElem?_eq_some_iff.mp hleft
    obtain ⟨hj, rfl⟩ := List.getElem?_eq_some_iff.mp hright
    exact List.pairwise_iff_getElem.mp hsorted i j hi hj hij
  induction hlength : high - low using Nat.strongRecOn generalizing low high with
  | ind length ih =>
    unfold search
    split
    · rename_i hlow
      dsimp only
      generalize hmiddle : low + (high - low) / 2 = middle
      have hin : middle < entries.length := by omega
      rw [hread middle hin, List.getElem?_eq_getElem hin]
      have hentry := List.getElem?_eq_getElem hin
      dsimp only
      split
      · rename_i hkey
        refine ih (high - (middle + 1)) (by omega) hhigh (fun index entry hget heq => ?_) rfl
        refine ⟨?_, (houtside index entry hget heq).2⟩
        by_contra hbefore
        obtain rfl | hlt := Nat.lt_or_eq_of_le (by omega : index ≤ middle) |>.symm
        · cases hentry.symm.trans hget
          omega
        · have hfirst := hless index middle _ _ hget hentry hlt
          omega
      · split
        · rename_i hkey
          refine ih (middle - low) (by omega) (by omega) (fun index entry hget heq => ?_) rfl
          refine ⟨(houtside index entry hget heq).1, ?_⟩
          by_contra hafter
          obtain rfl | hlt := Nat.lt_or_eq_of_le (by omega : middle ≤ index) |>.symm
          · cases hentry.symm.trans hget
            omega
          · have hlast := hless middle index _ _ hentry hget hlt
            omega
        · -- No earlier entry has the key, for the keys ascend strictly.
          symm
          refine List.find?_eq_some_iff_getElem.mpr ⟨decide_eq_true (by omega), middle, hin, rfl,
            fun index hindex => ?_⟩
          have hbefore := hless index middle _ _
            (List.getElem?_eq_getElem (Nat.lt_trans hindex hin)) hentry hindex
          simp only [Bool.not_eq_true', decide_eq_false_iff_not]
          omega
    · rename_i hempty
      symm
      refine List.find?_eq_none.mpr fun entry hmem heq => ?_
      obtain ⟨index, hget⟩ := List.getElem?_of_mem hmem
      have hrange := houtside index entry hget (of_decide_eq_true heq)
      omega

end SearchSorted
