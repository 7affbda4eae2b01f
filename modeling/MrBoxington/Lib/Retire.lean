import Mathlib.Algebra.BigOperators.Group.List.Lemmas
import Mathlib.Algebra.Order.Ring.Nat
import Mathlib.Logic.Function.Iterate
import Mathlib.Tactic.Common

/-!
# Retiring the oldest entries

Lists are ordered from the oldest to the newest entry. Entries that may be retired go one
after another, the oldest first, and all other entries stay in place.
-/

namespace Retire

variable {α : Type*} (p : α → Bool)

/-- A list without the oldest `k` entries that may be retired. -/
def retire (k : ℕ) (entries : List α) : List α := (List.eraseP p)^[k] entries

variable {p} {a : α} {entries : List α} {j k : ℕ}

@[simp] theorem retire_zero : retire p 0 entries = entries := rfl

@[simp] theorem retire_nil : retire p k [] = [] := by
  induction k with
  | zero => rfl
  | succ k ih => rw [retire, Function.iterate_succ_apply]; exact ih

theorem retire_succ_of_pos (ha : p a = true) :
    retire p (k + 1) (a :: entries) = retire p k entries := by
  rw [retire, Function.iterate_succ_apply, List.eraseP_cons_of_pos ha]
  rfl

theorem retire_of_neg (ha : p a = false) :
    retire p k (a :: entries) = a :: retire p k entries := by
  induction k generalizing entries with
  | zero => rfl
  | succ k ih =>
    rw [retire, Function.iterate_succ_apply, List.eraseP_cons_of_neg (by simp [ha])]
    exact ih

/-- Retiring in two rounds is retiring once. -/
theorem retire_add : retire p (j + k) entries = retire p k (retire p j entries) := by
  rw [retire, Nat.add_comm, Function.iterate_add_apply]
  rfl

theorem retire_sublist : (retire p k entries).Sublist entries := by
  induction k with
  | zero => exact List.Sublist.refl _
  | succ k ih =>
    rw [retire, Function.iterate_succ_apply']
    exact List.eraseP_sublist.trans ih

/-- Entries that may not be retired all stay. -/
theorem filter_not_retire :
    (retire p k entries).filter (fun a => !p a) = entries.filter (fun a => !p a) := by
  induction entries generalizing k with
  | nil => simp
  | cons a entries ih =>
    cases ha : p a with
    | false => simp [retire_of_neg ha, ha, ih]
    | true =>
      cases k with
      | zero => rfl
      | succ k => simp [retire_succ_of_pos ha, ha, ih]

/-- How many entries are left. -/
theorem length_retire :
    (retire p k entries).length = entries.length - min k (entries.countP p) := by
  induction entries generalizing k with
  | nil => simp
  | cons a entries ih =>
    have hcount := List.countP_le_length (p := p) (l := entries)
    cases ha : p a with
    | false =>
      rw [retire_of_neg ha, List.length_cons, ih, List.countP_cons_of_neg (by simp [ha]),
        List.length_cons]
      omega
    | true =>
      rw [List.countP_cons_of_pos ha, List.length_cons]
      cases k with
      | zero => simp
      | succ k =>
        rw [retire_succ_of_pos ha, ih]
        omega

/-- How many entries that may be retired are left. -/
theorem countP_retire : (retire p j entries).countP p = entries.countP p - j := by
  induction entries generalizing j with
  | nil => simp
  | cons a entries ih =>
    cases ha : p a with
    | false =>
      rw [retire_of_neg ha, List.countP_cons_of_neg (by simp [ha]), ih,
        List.countP_cons_of_neg (by simp [ha])]
    | true =>
      cases j with
      | zero => rfl
      | succ j =>
        rw [retire_succ_of_pos ha, ih, List.countP_cons_of_pos ha]
        omega

theorem retire_of_countP_le (hcount : entries.countP p ≤ k) :
    retire p k entries = entries.filter fun a => !p a := by
  induction entries generalizing k with
  | nil => simp
  | cons a entries ih =>
    cases ha : p a with
    | false =>
      rw [List.countP_cons_of_neg (by simp [ha])] at hcount
      simp [retire_of_neg ha, ha, ih hcount]
    | true =>
      rw [List.countP_cons_of_pos ha] at hcount
      obtain ⟨k, rfl⟩ := Nat.exists_eq_add_of_le' (Nat.one_le_of_lt hcount)
      rw [retire_succ_of_pos ha, ih (Nat.le_of_succ_le_succ hcount)]
      simp [ha]

end Retire
