import Mathlib.Data.List.Infix
import Mathlib.Data.List.Basic

/-!
# Rewriting a text from left to right

A rule looks at the rest of a text and either lets its first symbol be copied or
gives an output and the number of symbols after the first that it stands for. A
scan applies a rule from left to right. Replacing patterns is one such rule: a
pattern occurs where the text begins with it and the symbol after it is allowed
to stand there, and the first pattern of a table that occurs is replaced.
-/

namespace Scan

variable {α : Type*}

/-- What is done where the rest of the text is the argument: nothing, or an output
that stands for the first symbol and a number of symbols after it. -/
abbrev Rule (α : Type*) := List α → Option (ℕ × List α)

/-- The scan with a number of symbols still to be passed over. -/
def scanFrom (rule : Rule α) : ℕ → List α → List α
  | _, [] => []
  | skip + 1, _ :: rest => scanFrom rule skip rest
  | 0, a :: rest =>
    match rule (a :: rest) with
    | some (skip, out) => out ++ scanFrom rule skip rest
    | none => a :: scanFrom rule 0 rest

/-- The text that a rule makes of a text. -/
def scan (rule : Rule α) (text : List α) : List α := scanFrom rule 0 text

variable [DecidableEq α]

/-- A pattern occurs at the beginning of a text when the symbol after it, if there is
one, may stand there. -/
def occurs (stops : Option α → Bool) (pattern text : List α) : Bool :=
  decide (pattern <+: text) && stops (text.drop pattern.length).head?

/-- Replace the first pattern of a table that occurs. -/
def replaceFirst (stops : Option α → Bool) (table : List (List α × List α)) : Rule α := fun text =>
  (table.find? fun entry => occurs stops entry.1 text).map fun entry =>
    (entry.1.length - 1, entry.2)

end Scan
