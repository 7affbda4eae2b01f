import Mathlib.Data.List.Basic

/-!
# Walks along links

A walk takes one step of a path after the other. A step leads to another place, or to a link whose
own path is walked before the rest. Only so many links are followed on one walk.
-/

namespace LinkWalk

variable {σ τ : Type*}

/-- What a step of a path leads to. -/
inductive Move (σ τ : Type*) where
  | enter (next : σ)
  | follow (target : List τ)

variable {step : σ → τ → Option (Move σ τ)} {place found : σ} {front rest path : List τ}
  {links left extra : ℕ}

/-- Where a path leads from a place, and how many links could still be followed. -/
def walk (step : σ → τ → Option (Move σ τ)) (links : ℕ) (place : σ) (path : List τ) :
    Option (σ × ℕ) :=
  match path with
  | [] => some (place, links)
  | first :: rest =>
    match step place first with
    | none => none
    | some (.enter next) => walk step links next rest
    | some (.follow target) =>
      match links with
      | 0 => none
      | links + 1 => walk step links place (target ++ rest)
termination_by (links, path.length)

@[simp]
theorem walk_nil : walk step links place [] = some (place, links) := by rw [walk]

/-- A walk fails where its step fails. -/
theorem walk_none {first : τ} (hstep : step place first = none) :
    walk step links place (first :: rest) = none := by
  rw [walk, hstep]

/-- A step into a place goes on from there. -/
theorem walk_enter {first : τ} {next : σ} (hstep : step place first = some (.enter next)) :
    walk step links place (first :: rest) = walk step links next rest := by
  rw [walk, hstep]

theorem walk_follow_zero {first : τ} {target : List τ}
    (hstep : step place first = some (.follow target)) :
    walk step 0 place (first :: rest) = none := by
  rw [walk, hstep]

/-- A link costs one and puts its target in front of the rest. -/
theorem walk_follow {first : τ} {target : List τ}
    (hstep : step place first = some (.follow target)) :
    walk step (links + 1) place (first :: rest) = walk step links place (target ++ rest) := by
  rw [walk, hstep]

/-- A walk along two paths goes on where the first one leads, with the links that are left. -/
theorem walk_append : walk step links place (front ++ rest) =
    (walk step links place front).bind fun reached => walk step reached.2 reached.1 rest := by
  fun_induction walk step links place front with
  | case1 => rw [Option.bind_some, List.nil_append]
  | case2 _ _ _ _ hstep => rw [List.cons_append, walk_none hstep, Option.bind_none]
  | case3 _ _ _ _ _ hstep ih => rw [List.cons_append, walk_enter hstep, ih]
  | case4 _ _ _ _ hstep => rw [List.cons_append, walk_follow_zero hstep, Option.bind_none]
  | case5 _ _ _ _ hstep _ ih =>
    rw [List.cons_append, walk_follow hstep, ← List.append_assoc, ih]

theorem walk_left_le (hwalk : walk step links place path = some (found, left)) :
    left ≤ links := by
  fun_induction walk step links place path with
  | case1 =>
    cases hwalk
    exact Nat.le_refl _
  | case2 => cases hwalk
  | case3 _ _ _ _ _ _ ih => exact ih hwalk
  | case4 => cases hwalk
  | case5 _ _ _ _ _ _ ih => exact Nat.le_succ_of_le (ih hwalk)

private theorem walk_add_iff : walk step (links + extra) place path = some (found, left + extra) ↔
    walk step links place path = some (found, left) := by
  fun_induction walk step links place path with
  | case1 => simp
  | case2 _ _ _ _ hstep => simp [walk_none hstep]
  | case3 _ _ _ _ _ hstep ih => rw [walk_enter hstep, ih]
  | case4 _ _ _ _ hstep =>
    refine iff_of_false (fun hwalk => ?_) (by simp)
    cases extra with
    | zero => simp [walk_follow_zero hstep] at hwalk
    | succ extra =>
      rw [← Nat.add_assoc, walk_follow hstep] at hwalk
      have hle := walk_left_le hwalk
      omega
  | case5 _ _ _ _ hstep links ih =>
    rw [Nat.succ_add, walk_follow hstep, ih]

/-- With fewer links to follow a walk leads to the same place if it needs no more of them. -/
theorem walk_fewer : walk step links place path =
    (walk step (links + extra) place path).bind fun reached =>
      if extra ≤ reached.2 then some (reached.1, reached.2 - extra) else none := by
  cases hmore : walk step (links + extra) place path with
  | none =>
    cases hfewer : walk step links place path with
    | none => rfl
    | some reached =>
      rw [walk_add_iff.mpr hfewer] at hmore
      cases hmore
  | some reached =>
    rw [Option.bind_some]
    split
    · rename_i hle
      refine walk_add_iff.mp (hmore.trans ?_)
      rw [Nat.sub_add_cancel hle]
    · rename_i hlt
      cases hfewer : walk step links place path with
      | none => rfl
      | some other =>
        rw [walk_add_iff.mpr hfewer] at hmore
        cases hmore
        exact absurd (Nat.le_add_left _ _) hlt

/-- The walk rule: what each step keeps holds where the walk ends. -/
theorem walk_invariant {inv : σ → Prop} (hplace : inv place)
    (hstep : ∀ place first next, inv place → step place first = some (.enter next) → inv next)
    (hwalk : walk step links place path = some (found, left)) : inv found := by
  fun_induction walk step links place path with
  | case1 =>
    cases hwalk
    exact hplace
  | case2 => cases hwalk
  | case3 _ _ _ _ _ hnext ih => exact ih (hstep _ _ _ hplace hnext) hwalk
  | case4 => cases hwalk
  | case5 _ _ _ _ _ _ ih => exact ih hplace hwalk

end LinkWalk
