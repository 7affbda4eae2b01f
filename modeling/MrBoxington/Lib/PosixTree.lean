import Mathlib.Data.List.Infix
import Mathlib.Logic.Function.Basic
import Mathlib.Tactic.Common

/-!
# A tree of files with symbolic links

A tree says what lies at each location: a directory, a file or a link. A path is a
list of steps from a directory, and the system follows links on its way. Without links
a path leads where it seems to lead.
-/

namespace PosixTree

/-- Where something lies: the names from the root. -/
abbrev Location := List String

/-- One step of a path. -/
inductive Step where
  | down (name : String)
  | stay
  | up
  | top
deriving DecidableEq

/-- Where a step seems to lead. -/
def advance (location : Location) : Step → Location
  | .down name => location ++ [name]
  | .stay => location
  | .up => location.dropLast
  | .top => []

/-- Where a path seems to lead. -/
def lexical (location : Location) (steps : List Step) : Location := steps.foldl advance location

/-- What lies at a location. -/
inductive Node (β : Type*) where
  | dir
  | file (contents : β)
  | link (target : List Step)
deriving DecidableEq

/-- What lies where. -/
abbrev Nodes (β : Type*) := Location → Option (Node β)

end PosixTree
