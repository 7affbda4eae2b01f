import MrBoxington.Lib.Keyed

/-!
# Changing one entry of a keyed list

The entry of one key is changed in place. What the entries amount to together changes by what
that entry amounted to before and after.
-/

namespace Keyed

variable {α κ : Type*} [DecidableEq κ] (key : α → κ)

/-- Change the entry of a key. -/
def modify (k : κ) (f : α → α) (entries : List α) : List α :=
  entries.map fun a => if key a = k then f a else a

/-- What the entries amount to together. -/
def total (value : α → ℕ) (entries : List α) : ℕ :=
  entries.foldr (fun a rest => value a + rest) 0

variable {key} {k : κ} {f : α → α} {entries more : List α} {a : α} {value : α → ℕ}

@[simp] theorem total_nil : total value [] = 0 := rfl

@[simp] theorem total_cons : total value
    (a :: entries) = value a + total value entries := rfl

theorem total_append : total value (entries ++ more) = total value entries + total value more := by
  induction entries with
  | nil => simp
  | cons a rest ih => simp [ih, Nat.add_assoc]

theorem map_key_modify (hkey : ∀ a, key a = k → key (f a) = k) :
    (modify key k f entries).map key = entries.map key := by
  rw [modify, List.map_map]
  refine List.map_congr_left fun a _ => ?_
  rw [Function.comp_apply]
  split
  · rename_i heq
    rw [hkey a heq, heq]
  · rfl

/-- A modification reaches the entry of its key only. -/
theorem lookup_modify (hkey : ∀ a, key a = k → key (f a) = k) (l : κ) :
    lookup key (modify key k f entries) l =
      if l = k then (lookup key entries k).map f else lookup key entries l := by
  induction entries with
  | nil => simp [modify]
  | cons a rest ih =>
    rw [modify] at ih ⊢
    rw [List.map_cons, lookup_cons, ih, lookup_cons, lookup_cons]
    by_cases ha : key a = k
    · have hfa := hkey a ha
      by_cases hl : l = k
      · simp [ha, hfa, hl]
      · simp [ha, hfa, hl, Ne.symm hl]
    · by_cases hl : l = k
      · subst hl
        simp [ha]
      · simp [ha, hl]

/-- A modification moves the total by the change of one entry. -/
theorem total_modify (hnodup : (entries.map key).Nodup) (hfound : lookup key entries k = some a) :
    total value (modify key k f entries) + value a = total value entries + value (f a) := by
  induction entries with
  | nil => cases hfound
  | cons b rest ih =>
    rw [List.map_cons, List.nodup_cons] at hnodup
    rw [lookup_cons] at hfound
    by_cases hb : key b = k
    · obtain rfl : b = a := by simpa [hb] using hfound
      have hrest : modify key k f rest = rest := by
        rw [modify]
        refine (List.map_congr_left fun c hc => ?_).trans (List.map_id rest)
        have hne : key c ≠ k := fun heq =>
          hnodup.1 (hb.trans heq.symm ▸ List.mem_map_of_mem hc)
        rw [if_neg hne, id]
      rw [modify] at hrest ⊢
      simp only [List.map_cons, hrest, total_cons, if_pos hb]
      omega
    · rw [if_neg hb] at hfound
      have hsum := ih hnodup.2 hfound
      rw [modify] at hsum ⊢
      simp only [List.map_cons, total_cons, if_neg hb]
      omega

end Keyed
