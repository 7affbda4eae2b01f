import Mathlib.Data.List.Infix
import Mathlib.Logic.Relation
import MrBoxington.Lib.PosixResolve

/-!
# Following a path move by move

The system follows a path one step at a time. Between the moves it is at a location with the
rest of the path before it. Where a tree is mounted at a place that was free, moves outside of
the place are those of before.
-/

namespace PosixTree

open Relation

variable {β : Type*}

/-- A larger tree, with this one below a directory. -/
def mount (tree : Nodes β) (surroundings : Nodes β) (top : Location) : Nodes β := fun location =>
  if top.isPrefixOf location then tree (location.drop top.length) else surroundings location

@[simp]
theorem mount_append {tree surroundings : Nodes β} {top location : Location} :
    mount tree surroundings top (top ++ location) = tree location := by
  simp [mount]

/-- One move along a path. -/
inductive Moves (tree : Nodes β) : Location × List Step → Location × List Step → Prop where
  | enter {location : Location} {name : String} {rest : List Step} {node : Node β}
      (hdir : tree location = some .dir) (hnode : tree (location ++ [name]) = some node)
      (hlink : ∀ target, node ≠ .link target) :
      Moves tree (location, .down name :: rest) (location ++ [name], rest)
  | follow {location : Location} {name : String} {target rest : List Step}
      (hdir : tree location = some .dir) (hlink : tree (location ++ [name]) = some (.link target)) :
      Moves tree (location, .down name :: rest) (location, target ++ rest)
  | stay {location : Location} {rest : List Step} (hdir : tree location = some .dir) :
      Moves tree (location, .stay :: rest) (location, rest)
  | up {location : Location} {rest : List Step} (hdir : tree location = some .dir) :
      Moves tree (location, .up :: rest) (location.dropLast, rest)
  | top {location : Location} {rest : List Step} (hdir : tree location = some .dir) :
      Moves tree (location, .top :: rest) ([], rest)

variable {tree mounted before : Nodes β} {location found place : Location} {steps : List Step}
  {links : ℕ} {start out : Location × List Step}

/-- What is reached is reached by moves. -/
theorem Reaches.moves (hreaches : Reaches tree links location steps found) :
    ReflTransGen (Moves tree) (location, steps) (found, []) := by
  induction hreaches with
  | done => exact .refl
  | enter hdir hnode hlink _ ih => exact .head (.enter hdir hnode hlink) ih
  | follow hdir hlink _ ih => exact .head (.follow hdir hlink) ih
  | stay hdir _ ih => exact .head (.stay hdir) ih
  | up hdir _ ih => exact .head (.up hdir) ih
  | top hdir _ ih => exact .head (.top hdir) ih

/-- A mount changes nothing outside its place. -/
theorem mount_outside (houtside : ¬ place <+: location) :
    mount mounted before place location = before location :=
  if_neg fun hinside => houtside (List.isPrefixOf_iff_prefix.mp hinside)

/-- Moves among what was there before go on as they did. -/
theorem Moves.mount (hfree : ∀ location, place <+: location → before location = none)
    (hmove : Moves before start out) : Moves (mount mounted before place) start out := by
  have hsame {location : Location} {node : Node β} (hnode : before location = some node) :
      PosixTree.mount mounted before place location = some node := by
    have houtside : ¬ place <+: location := fun hinside => by
      rw [hfree location hinside] at hnode
      cases hnode
    rw [mount_outside houtside, hnode]
  cases hmove with
  | enter hdir hnode hlink => exact .enter (hsame hdir) (hsame hnode) hlink
  | follow hdir hlink => exact .follow (hsame hdir) (hsame hlink)
  | stay hdir => exact .stay (hsame hdir)
  | up hdir => exact .up (hsame hdir)
  | top hdir => exact .top (hsame hdir)

/-- There is one move from a position. -/
theorem Moves.deterministic {out' : Location × List Step} (hmove : Moves tree start out)
    (hmove' : Moves tree start out') : out = out' := by
  cases hmove with
  | enter hdir hnode hlink =>
    cases hmove' with
    | enter => rfl
    | follow _ hlink' => exact absurd (Option.some.inj (hnode.symm.trans hlink')) (hlink _)
  | follow hdir hlink =>
    cases hmove' with
    | enter _ hnode hlink' => exact absurd (Option.some.inj (hnode.symm.trans hlink)) (hlink' _)
    | follow _ hlink' =>
      obtain rfl := Node.link.inj (Option.some.inj (hlink.symm.trans hlink'))
      rfl
  | stay => cases hmove'; rfl
  | up => cases hmove'; rfl
  | top => cases hmove'; rfl

end PosixTree
