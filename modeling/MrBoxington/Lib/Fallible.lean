import Mathlib.Data.List.Induction
import Mathlib.Tactic.Common

/-!
# Computations that may fail

What is known of the parts of a computation that did not fail.
-/

namespace Fallible

variable {ε α β : Type}

/-- A bind that succeeds has two parts that succeed. -/
theorem bind_ok {x : Except ε α} {f : α → Except ε β} {b : β} (hbind : (x >>= f) = .ok b) :
    ∃ a, x = .ok a ∧ f a = .ok b := by
  cases x with
  | error e => exact absurd hbind (by simp [bind, Except.bind])
  | ok a => exact ⟨a, rfl, hbind⟩

theorem bind_of_ok {x : Except ε α} {f : α → Except ε β} {a : α} (hx : x = .ok a) :
    (x >>= f) = f a := by
  rw [hx]
  rfl

/-- Where all items are mapped, each of them has its result. -/
theorem ok_of_mapM {f : α → Except ε β} {items : List α} {results : List β}
    (hmap : items.mapM f = .ok results) {item : α} (hmem : item ∈ items) :
    ∃ result ∈ results, f item = .ok result := by
  induction items generalizing results with
  | nil => exact absurd hmem List.not_mem_nil
  | cons first rest ih =>
    rw [List.mapM_cons] at hmap
    obtain ⟨result, hfirst, hmap⟩ := bind_ok hmap
    obtain ⟨others, hrest, hmap⟩ := bind_ok hmap
    cases hmap
    rcases List.mem_cons.mp hmem with rfl | hmem
    · exact ⟨result, List.mem_cons_self, hfirst⟩
    · obtain ⟨other, hother, hok⟩ := ih hrest hmem
      exact ⟨other, List.mem_cons_of_mem _ hother, hok⟩

/-- Items that all succeed are mapped together. -/
theorem mapM_ok {f : α → Except ε β} {g : α → β} {items : List α}
    (hitems : ∀ item ∈ items, f item = .ok (g item)) : items.mapM f = .ok (items.map g) := by
  induction items with
  | nil => rfl
  | cons first rest ih =>
    rw [List.forall_mem_cons] at hitems
    rw [List.mapM_cons, hitems.1, ih hitems.2]
    rfl

/-- The loop rule: what each step keeps holds of the whole fold. -/
theorem foldlM_invariant (inv : List β → α → Prop) {f : α → β → Except ε α}
    (hstep : ∀ done a b a', inv done a → f a b = .ok a' → inv (done ++ [b]) a') {items : List β}
    {start result : α} (hstart : inv [] start) (hfold : items.foldlM f start = .ok result) :
    inv items result := by
  induction items using List.reverseRecOn generalizing result with
  | nil =>
    cases hfold
    exact hstart
  | append_singleton done item ih =>
    rw [List.foldlM_append] at hfold
    obtain ⟨before, hdone, hlast⟩ := bind_ok hfold
    rw [List.foldlM_cons] at hlast
    obtain ⟨after, hitem, hnil⟩ := bind_ok hlast
    cases hnil
    exact hstep done before item _ (ih hdone) hitem

end Fallible
