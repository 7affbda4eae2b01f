import MrBoxington.Lib.PosixTree

/-!
# Components of paths

The text of a path is cut at its separators, as the standard library of the source does it.
-/

namespace MrBoxington.BuildScript

open PosixTree (Step)

/-- The text between the separators of a path. -/
def pieces (text : String) : List (List Char) := text.toList.splitOn '/'

/-- The components of a path: separators and dots count at its front only. -/
def components (text : String) : List Step :=
  (if text.toList.head? = some '/' then [.top]
    else if (pieces text).head? = some ['.'] then [.stay] else []) ++
  ((pieces text).filter fun piece => piece ≠ [] ∧ piece ≠ ['.']).map fun piece =>
    if piece = ['.', '.'] then .up else .down (String.ofList piece)

end MrBoxington.BuildScript
