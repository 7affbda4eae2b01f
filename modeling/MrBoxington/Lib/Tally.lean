import Mathlib.Data.List.Sort

/-!
# Tallies

A tally holds an amount for each of some keys, in an order of the keys. What its keys
with a property amount to is counted by `weigh`.
-/

namespace Tally

variable {κ : Type*} {wanted : κ → Bool} {tally : List (κ × ℕ)} {key : κ}
  {amount : ℕ}

/-- The amount of all keys with a property. -/
def weigh (wanted : κ → Bool) (tally : List (κ × ℕ)) : ℕ :=
  tally.foldr (fun entry rest => (if wanted entry.1 then entry.2 else 0) + rest) 0

@[simp] theorem weigh_nil : weigh wanted [] = 0 := rfl

@[simp] theorem weigh_cons (entry : κ × ℕ) :
    weigh wanted (entry :: tally) =
      (if wanted entry.1 then entry.2 else 0) + weigh wanted tally := rfl

private theorem weigh_perm {other : List (κ × ℕ)} (hperm : tally.Perm other) :
    weigh wanted tally = weigh wanted other :=
  hperm.foldr_eq' (fun _ _ _ _ _ => by omega) 0

private theorem weigh_eq_zero (hnone : ∀ entry ∈ tally, wanted entry.1 = false) :
    weigh wanted tally = 0 := by
  induction tally with
  | nil => rfl
  | cons entry rest ih =>
    rw [weigh_cons, ih fun e he => hnone e (List.mem_cons_of_mem _ he),
      hnone entry List.mem_cons_self]
    rfl

variable [DecidableEq κ]

/-- Adds to the amount of a key. -/
def add (before : κ → κ → Prop) [DecidableRel before] (key : κ) (amount : ℕ)
    (tally : List (κ × ℕ)) : List (κ × ℕ) :=
  if key ∈ tally.map Prod.fst then
    tally.map fun entry => if entry.1 = key then (key, entry.2 + amount) else entry
  else tally.orderedInsert (fun left right => before left.1 right.1) (key, amount)

/-- The only entry of a key holds the amount of the key. -/
theorem weigh_of_mem (hnodup : (tally.map Prod.fst).Nodup) (hmem : (key, amount) ∈ tally) :
    weigh (fun k => decide (k = key)) tally = amount := by
  induction tally with
  | nil => cases hmem
  | cons entry rest ih =>
    rw [List.map_cons, List.nodup_cons] at hnodup
    rw [weigh_cons]
    obtain rfl | hrest := List.mem_cons.mp hmem
    · have hzero : weigh (fun k => decide (k = key)) rest = 0 :=
        weigh_eq_zero fun e he => decide_eq_false fun heq : e.1 = key =>
          hnodup.1 (List.mem_map.mpr ⟨e, he, heq⟩)
      simp [hzero]
    · have hne : entry.1 ≠ key := fun heq => hnodup.1 (heq ▸ List.mem_map_of_mem hrest)
      simp [hne, ih hnodup.2 hrest]

private theorem mem_of_weigh_pos (hpos : 0 < weigh (fun k => decide (k = key)) tally) :
    key ∈ tally.map Prod.fst := by
  by_contra hnot
  have hzero : weigh (fun k => decide (k = key)) tally = 0 :=
    weigh_eq_zero fun entry hmem => decide_eq_false fun heq : entry.1 = key =>
      hnot (heq ▸ List.mem_map_of_mem hmem)
  omega

/-- The entries of positive amounts are exactly the keys with what they amount to. -/
theorem mem_iff_weigh (hnodup : (tally.map Prod.fst).Nodup) (hpos : 0 < amount) :
    (key, amount) ∈ tally ↔ weigh (fun k => decide (k = key)) tally = amount := by
  refine ⟨weigh_of_mem hnodup, fun hweigh => ?_⟩
  obtain ⟨⟨key', amount'⟩, hmem, rfl⟩ := List.mem_map.mp
    (mem_of_weigh_pos (hweigh ▸ hpos))
  rwa [← hweigh, weigh_of_mem hnodup hmem]

section Add

variable {before : κ → κ → Prop} [DecidableRel before]

private theorem weigh_map_add (hnodup : (tally.map Prod.fst).Nodup)
    (hmem : key ∈ tally.map Prod.fst) :
    weigh wanted (tally.map fun entry => if entry.1 = key then (key, entry.2 + amount) else entry)
      = weigh wanted tally + if wanted key then amount else 0 := by
  induction tally with
  | nil => cases hmem
  | cons entry rest ih =>
    rw [List.map_cons, List.nodup_cons] at hnodup
    rw [List.map_cons, weigh_cons, weigh_cons]
    by_cases hkey : entry.1 = key
    · have hrest : rest.map (fun entry => if entry.1 = key then (key, entry.2 + amount) else entry)
          = rest := by
        refine (List.map_congr_left fun e he => if_neg fun heq => hnodup.1 ?_).trans
          (List.map_id rest)
        exact hkey ▸ heq ▸ List.mem_map_of_mem he
      rw [hrest, if_pos hkey, hkey]
      split <;> omega
    · have hin : key ∈ rest.map Prod.fst :=
        (List.mem_cons.mp hmem).resolve_left fun heq => hkey heq.symm
      rw [if_neg hkey, ih hnodup.2 hin]
      omega

/-- What is added is weighed once. -/
theorem weigh_add (hnodup : (tally.map Prod.fst).Nodup) :
    weigh wanted (add before key amount tally) =
      weigh wanted tally + if wanted key then amount else 0 := by
  unfold add
  split
  · rename_i hmem
    exact weigh_map_add hnodup hmem
  · rw [weigh_perm (List.perm_orderedInsert _ _ _), weigh_cons]
    exact Nat.add_comm _ _

/-- Adding keeps one entry for each key. -/
theorem nodup_add (hnodup : (tally.map Prod.fst).Nodup) :
    ((add before key amount tally).map Prod.fst).Nodup := by
  unfold add
  split
  · have hkeys : (tally.map fun entry =>
        if entry.1 = key then (key, entry.2 + amount) else entry).map Prod.fst =
        tally.map Prod.fst := by
      rw [List.map_map]
      refine List.map_congr_left fun entry _ => ?_
      simp only [Function.comp_apply]
      split
      · rename_i heq
        exact heq.symm
      · rfl
    rwa [hkeys]
  · rename_i hnot
    have hperm := (List.perm_orderedInsert (fun left right : κ × ℕ => before left.1 right.1)
      (key, amount) tally).map Prod.fst
    exact hperm.nodup_iff.mpr (List.nodup_cons.mpr ⟨hnot, hnodup⟩)

end Add

end Tally
