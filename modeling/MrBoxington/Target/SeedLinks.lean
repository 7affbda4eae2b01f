import Mathlib.Data.List.Forall2
import MrBoxington.Lib.Paths
import MrBoxington.Lib.PosixMoves

/-!
# The links in a unit copied from another checkout

A unit is copied from a donor's target directory into another checkout. Each symbolic link in
it is judged by its text alone: steps up are refused, a relative link is kept, an absolute one
into the unit is pointed into the copy, one that names the donor's directories is refused, and
any other absolute link is kept. The system then follows the links of the copy through all other
links there are.
-/

namespace MrBoxington.Target.Seed

open PosixTree Paths Relation

variable {β : Type*}

/-- A target directory units may be copied from. -/
structure Donor where
  directory : Path
  workspaceRoot : Path

/-- The paths that are taken to reach the donor's files. -/
def Donor.spellings (donor : Donor) : List Path := [donor.directory, donor.workspaceRoot]

/-- A path inside the donor's directory, and the same place through the checkout's link. -/
def Donor.respellings (donor : Donor) (path : Path) : List Path :=
  path :: ((stripPrefix path donor.directory).map fun inside =>
    join (join donor.workspaceRoot [.down "target"]) inside).toList

/-- Where the links in a copied tree may point. -/
structure Links where
  source : Path
  destination : Path
  donor : Donor

/-- The text of the copy of a link, unless the link is refused. -/
def copySymlink (links : Links) (target : Path) : Option Path :=
  if .up ∈ target then none
  else if !isAbsolute target then some target
  else
    match (links.donor.respellings links.source).findSome? (stripPrefix target) with
    | some inside => some (join links.destination inside)
    | none => if links.donor.spellings.any (startsWith target) then none else some target

/-- The entries of a unit, with their locations in it. -/
abbrev Entries (β : Type*) := List (Location × Node β)

def copyNode (links : Links) : Node β → Option (Node β)
  | .link target => (copySymlink links target).map .link
  | node => some node

def copyEntry (links : Links) (entry : Location × Node β) : Option (Location × Node β) :=
  (copyNode links entry.2).map fun copied => (entry.1, copied)

def copyTree (links : Links) (unit : Entries β) : Option (Entries β) :=
  unit.mapM (copyEntry links)

/-- What lies where in a unit, whose top is a directory. -/
def nodesOf (unit : Entries β) : Nodes β := fun location =>
  if location = [] then some .dir
  else (unit.find? fun entry => entry.1 = location).map Prod.snd

/-- The text of a link is absolute or relative as a whole. -/
def IsText (target : Path) : Prop := .top ∉ target.tail

instance (target : Path) : Decidable (IsText target) :=
  inferInstanceAs (Decidable (Step.top ∉ target.tail))

/-- The text of a link as it is seen from within the unit: a relative link is what it is, and one
into the unit starts at the unit's top. Other links are not followed there. -/
def inward (links : Links) (target : Path) : Option Path :=
  if !isAbsolute target then some target
  else ((links.donor.respellings links.source).findSome? (stripPrefix target)).map (join [.top])

/-- A unit as a file system of its own. -/
def insideOf (links : Links) (unit : Entries β) : Nodes β := fun location =>
  match nodesOf unit location with
  | some (.link target) => (inward links target).map .link
  | node => node

/-- A unit is about to be placed at a path that leads to a directory with nothing under the last
name. All links have texts. -/
structure Seeding (β : Type*) where
  before : Nodes β
  donor : Donor
  source : Path
  directories : List String
  name : String
  parent : Location
  links : ℕ
  hsource : isAbsolute source = true
  hworkspace : isAbsolute donor.workspaceRoot = true
  hplace : Reaches before links [] (directories.map .down) parent
  hparent : before parent = some .dir
  hfree : ∀ location, parent ++ [name] <+: location → before location = none
  htexts : ∀ location target, before location = some (.link target) → IsText target

namespace Seeding

/-- Where the copy lies. -/
def place (seeding : Seeding β) : Location := seeding.parent ++ [seeding.name]

/-- The names that lead to the copy. -/
def way (seeding : Seeding β) : Path :=
  seeding.directories.map .down ++ [.down seeding.name]

def toLinks (seeding : Seeding β) : Links :=
  ⟨seeding.source, .top :: seeding.way, seeding.donor⟩

/-- The file system with the copy. -/
def after (seeding : Seeding β) (copied : Entries β) : Nodes β :=
  mount (nodesOf copied) seeding.before seeding.place

/-- The copy lies in none of the donor's directories, and none of them in it. -/
def Outside (seeding : Seeding β) : Prop :=
  ∀ spelling ∈ seeding.donor.spellings, ∀ links root,
    Reaches seeding.before links [] spelling root →
    ¬ root <+: seeding.place ∧ ¬ seeding.place <+: root

/-- Where the system gets within the unit when it follows one of the unit's links. -/
def Within (seeding : Seeding β) (unit : Entries β) (position : Location × List Step) : Prop :=
  ∃ directory name target, (directory ++ [name], .link target) ∈ unit ∧
    ReflTransGen (Moves (insideOf seeding.toLinks unit)) (directory, [.down name]) position

end Seeding

section Copying

variable {links : Links} {unit copied : Entries β} {target text : Path} {location : Location}

private theorem copyTree_forall₂ (hcopied : copyTree links unit = some copied) :
    List.Forall₂ (fun entry copy => copy.1 = entry.1 ∧ copyNode links entry.2 = some copy.2)
      unit copied := by
  induction unit generalizing copied with
  | nil =>
    obtain rfl : [] = copied := Option.some.inj hcopied
    exact .nil
  | cons entry unit ih =>
    simp only [copyTree, List.mapM_cons, Option.bind_eq_bind, Option.bind_eq_some_iff,
      Option.pure_def, Option.some.injEq] at hcopied
    obtain ⟨first, hfirst, others, hothers, rfl⟩ := hcopied
    obtain ⟨node, hnode, rfl⟩ := Option.map_eq_some_iff.mp hfirst
    exact .cons ⟨rfl, hnode⟩ (ih hothers)

/-- What lies in the copy is the copy of what lies in the unit. -/
theorem nodesOf_copyTree (hcopied : copyTree links unit = some copied) (location : Location) :
    nodesOf copied location = (nodesOf unit location).bind (copyNode links) := by
  unfold nodesOf
  split
  · rfl
  · have hpairs := copyTree_forall₂ hcopied
    clear hcopied
    induction hpairs with
    | nil => rfl
    | @cons entry copy _ _ hpair _ ih =>
      obtain ⟨hlocation, hnode⟩ := hpair
      rw [List.find?_cons, List.find?_cons, hlocation]
      split
      · exact hnode.symm
      · exact ih

end Copying

namespace Seeding

variable {seeding : Seeding β} {unit copied : Entries β} {target text : Path}
  {location found : Location} {start exit : Location × List Step}

private theorem not_place_prefix_parent : ¬ seeding.place <+: seeding.parent := fun hprefix => by
  have hlength := hprefix.length_le
  rw [place, List.length_append, List.length_singleton] at hlength
  omega

section Following

variable (hunit : ∀ location target, (location, .link target) ∈ unit → IsText target)
  (hcopied : copyTree seeding.toLinks unit = some copied)
include hcopied

private theorem after_place (location : Location) : seeding.after copied
    (seeding.place ++ location) =
    (nodesOf unit location).bind (copyNode seeding.toLinks) := by
  rw [after, mount_append, nodesOf_copyTree hcopied]

/-- The system enters the copy at its top. -/
theorem enters (rest : List Step) : Moves (seeding.after copied)
    (seeding.parent, .down seeding.name :: rest) (seeding.place, rest) := by
  refine @Moves.enter _ _ _ _ _ .dir ?_ ?_ (by simp)
  · rw [after, mount_outside not_place_prefix_parent, seeding.hparent]
  · have htop := after_place hcopied []
    rwa [List.append_nil] at htop

include hunit

end Following

private theorem Within.tail {position next : Location × List Step}
    (hwithin : seeding.Within unit position)
    (hmove : Moves (insideOf seeding.toLinks unit) position next) : seeding.Within unit next := by
  obtain ⟨directory, name, target, hmem, hmoves⟩ := hwithin
  exact ⟨directory, name, target, hmem, hmoves.tail hmove⟩

section Course

variable (hunit : ∀ location target, (location, .link target) ∈ unit → IsText target)
  (hcopied : copyTree seeding.toLinks unit = some copied)
include hunit hcopied

end Course

end Seeding

section Aliased

end Aliased

end MrBoxington.Target.Seed
