import Mathlib.Data.List.DropRight
import MrBoxington.Cc.Invocation
import MrBoxington.Lib.TextLines

/-!
# Lists of dependencies for make

A driver lists what it read in a rule for make, over several lines with a backslash at their end.
The adapter reads such a list, and writes one for the caller that asked for it.
-/

namespace MrBoxington.Cc

open BuildScript (components)
open Strings

/-- The files of a list, as they are written. -/
structure CcDepfile where
  files : List String
deriving DecidableEq

namespace CcDepfile

/-! ## The writer -/

/-- A word as make reads it. -/
def escapeMakeWord (word : List Char) : List Char :=
  word.flatMap fun c =>
    if c = ' ' then ['\\', ' ']
    else if c = '#' then ['\\', '#']
    else if c = '$' then ['$', '$']
    else [c]

/-- The text of a target. -/
def targetText (target : DepfileTarget) : List Char :=
  if target.quoted then escapeMakeWord target.name.toList else target.name.toList

/-- The text of a list: the rule, and an empty rule for each file but the source if the caller
wants them. -/
def render (targets : List DepfileTarget) (files : List String) (source : String)
    (phonyTargets : Bool) : String :=
  String.ofList ([' '].intercalate (targets.map targetText) ++ [':'] ++
    (files.flatMap fun file => [' ', '\\', '\n', ' '] ++ escapeMakeWord file.toList) ++ ['\n'] ++
    if phonyTargets then
      (files.filter fun file => components file ≠ components source).flatMap fun file =>
        escapeMakeWord file.toList ++ [':', '\n']
    else [])

/-! ## The reader -/

/-- What is joined of the lines, and whether the last one goes on. -/
structure Joined where
  text : List Char := []
  continued : Bool := false

/-- One line. -/
def Joined.addLine (joined : Joined) (line : List Char) : Joined :=
  let trimmed := stripReturn line
  let continues : Bool := trimmed.getLast? = some '\\'
  let text := if continues then trimmed.dropLast else trimmed
  let blank := if joined.continued then [' '] else []
  let ending := if continues then [] else ['\n']
  ⟨joined.text ++ blank ++ text.rdropWhile (· = '\t') ++ ending, continues⟩

/-- The lines of the list, each with those that it goes on in. -/
def joinContinuations (contents : List Char) : Except CcBypassReason (List Char) :=
  let joined := (lineChars contents).foldl Joined.addLine {}
  if joined.continued then .error (.malformedDepfile "unterminated line continuation")
  else .ok joined.text

/-- A blank between words. -/
def isBlank (c : Char) : Bool := c = ' ' ∨ c = '\t'

/-- The words of a rule, with what was read of the first one. -/
def splitEscaped (current : List Char) : List Char → Except CcBypassReason (List (List Char))
  | [] => .ok (if current = [] then [] else [current])
  | c :: rest =>
    if isBlank c then
      (splitEscaped [] rest).map ((if current = [] then [] else [current]) ++ ·)
    else if c = '\\' then
      match rest with
      | [] => .error (.malformedDepfile "trailing escape character")
      | escaped :: rest =>
        if escaped = ' ' ∨ escaped = '#' then splitEscaped (current ++ [escaped]) rest
        else .error (.malformedDepfile ("unmodeled escape \\" ++ String.singleton escaped))
    else if c = '$' then
      match rest with
      | [] => .error (.malformedDepfile "trailing variable reference")
      | escaped :: rest =>
        if escaped = '$' then splitEscaped (current ++ ['$']) rest
        else
          .error (.malformedDepfile ("unmodeled variable reference $" ++ String.singleton escaped))
    else splitEscaped (current ++ [c]) rest

/-- The words of a rule, character by character. -/
def splitEscapedPrerequisites (value : List Char) : Except CcBypassReason (List String) :=
  (splitEscaped [] value).map fun files => files.map String.ofList

/-- The words of a rule. Without escapes they are what is between blanks. -/
def splitPrerequisites (value : List Char) : Except CcBypassReason (List String) :=
  if '\\' ∉ value ∧ '$' ∉ value then .ok ((words isBlank value).map String.ofList)
  else splitEscapedPrerequisites value

/-- What separates the targets of a rule from its files. -/
def ruleSeparator : List Char := [':', ' ']

/-- The files of the first rule of a list. -/
def parse (contents : String) : Except CcBypassReason CcDepfile := do
  let joined ← joinContinuations contents.toList
  match (lineChars joined).findSome? (cutAt ruleSeparator) with
  | none => .error (.malformedDepfile "no dependency rule")
  | some (_, prerequisites) => (splitPrerequisites prerequisites).map .mk

end CcDepfile

end MrBoxington.Cc
