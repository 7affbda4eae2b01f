import Mathlib.Data.List.Sort
import MrBoxington.Lib.Fallible
import MrBoxington.Lib.KeyedMap
import MrBoxington.Rustc.Discover

/-!
# What the compiler lists

The compiler lists the files it read in a rule for make, and the variables of the environment in
comments. A blank in a path is written with a backslash before it. The reader takes the rule apart
at blanks and puts parts that end with a backslash together again.
-/

namespace MrBoxington.Rustc

open BuildScript (components)
open Paths (Path)
open PosixTree (Step)
open Std (TreeMap)
open Strings

/-! ## The reader -/

/-- The character is white space. -/
def isWhitespace (c : Char) : Bool :=
  c = ' ' ∨ (9 ≤ c.toNat ∧ c.toNat ≤ 13) ∨ (0x2000 ≤ c.toNat ∧ c.toNat ≤ 0x200A) ∨
    c.toNat ∈ [0x85, 0xA0, 0x1680, 0x2028, 0x2029, 0x202F, 0x205F, 0x3000]

/-- A text of a record with its escapes read. -/
def unescapeChars : List Char → Except BypassReason (List Char)
  | [] => .ok []
  | c :: rest =>
    if c ≠ '\\' then (unescapeChars rest).map (c :: ·)
    else
      match rest with
      | [] => .error (.malformedDepInfo "environment input ends with an unterminated escape")
      | escaped :: rest =>
        if escaped = '\\' then (unescapeChars rest).map ('\\' :: ·)
        else if escaped = 'n' then (unescapeChars rest).map ('\n' :: ·)
        else if escaped = 'r' then (unescapeChars rest).map ('\r' :: ·)
        else
          .error (.malformedDepInfo ("unknown environment escape \\" ++ String.singleton escaped))

/-- A text of a record with its escapes read. -/
def unescapeEnvironment (value : String) : Except BypassReason String :=
  (unescapeChars value.toList).map String.ofList

/-- How a record of the environment starts. -/
def recordStart : String := "# env-dep:"

/-- What was read of a list. -/
structure DepInfoReader where
  files : List Path := []
  environment : TreeMap String (Option String) := ∅
  foundDependencies : Bool := false

namespace DepInfoReader

variable (reader : DepInfoReader)

/-- A variable with its value. -/
def insertVariable (name : String) (value : Option String) : Except BypassReason DepInfoReader :=
  if reader.environment[name]?.any (· ≠ value) then .error (.conflictingEnvironment name)
  else .ok { reader with environment := reader.environment.insert name value }

/-- The name and the value in a record. -/
def splitRecord (record : String) : String × Option String :=
  match splitOnce record '=' with
  | some (name, value) => (name, some value)
  | none => (record, none)

/-- A record of the environment. -/
def readRecord (record : String) : Except BypassReason DepInfoReader := do
  let name ← unescapeEnvironment (splitRecord record).1
  if name = "" then .error (.malformedDepInfo "environment input has an empty name")
  else do
    let value ← (splitRecord record).2.mapM unescapeEnvironment
    reader.insertVariable name value

/-- The paths in the parts of a rule. A part that ends with a backslash goes on in the next one. -/
def readFragments : Option (List Char) → List (List Char) → Except BypassReason (List (List Char))
  | none, [] => .ok []
  | some _, [] =>
    .error (.malformedDepInfo "dependency path ends with an unterminated escape")
  | started, fragment :: rest =>
    let file := match started with
      | none => fragment
      | some file => file.dropLast ++ ' ' :: fragment
    if file.getLast? = some '\\' then readFragments (some file) rest
    else if file = [] then .error (.malformedDepInfo "dependency path is empty")
    else (readFragments none rest).map (file :: ·)

/-- A file that was not read before. -/
def insertFile (files : List Path) (file : List Char) : List Path :=
  let path := components (String.ofList file)
  if files.contains path then files else files ++ [path]

/-- The files of a rule. -/
def readRule (prerequisites : List Char) : Except BypassReason DepInfoReader := do
  let files ← readFragments none (words isWhitespace prerequisites)
  .ok { reader with files := files.foldl insertFile reader.files, foundDependencies := true }

/-- One line. -/
def readLine (line : String) : Except BypassReason DepInfoReader :=
  match stripPrefix line recordStart with
  | some record => reader.readRecord record
  | none =>
    match cutAt [':', ' '] line.toList with
    | none => .ok reader
    | some (_, prerequisites) =>
      if reader.foundDependencies then .ok reader else reader.readRule prerequisites

end DepInfoReader

/-- The place of a component in the order of components. -/
def stepRank : Step → ℕ
  | .top => 0
  | .stay => 1
  | .up => 2
  | .down _ => 3

/-- The order of paths, component by component. -/
def pathLe : Path → Path → Bool
  | [], _ => true
  | _ :: _, [] => false
  | first :: rest, first' :: rest' =>
    if first = first' then pathLe rest rest'
    else
      match first, first' with
      | .down name, .down name' => name ≤ name'
      | first, first' => stepRank first ≤ stepRank first'

/-- What the compiler lists, by the text of its list. -/
def RustcDepInfo.parse (contents : String) : Except BypassReason RustcDepInfo := do
  let reader ← (lines contents).foldlM DepInfoReader.readLine {}
  if reader.foundDependencies = false then
    .error (.malformedDepInfo "dependency rule is missing")
  else if reader.files = [] then
    .error (.malformedDepInfo "dependency rule contains no inputs")
  else .ok ⟨reader.files.insertionSort fun left right => pathLe left right = true,
    reader.environment.toList⟩

/-! ## The writer -/

/-- A path with a backslash before every blank. -/
def escapeSpaces (path : List Char) : List Char :=
  path.flatMap fun c => if c = ' ' then ['\\', ' '] else [c]

/-- A text of a record with escapes. -/
def escapeEnvironment (text : List Char) : List Char :=
  text.flatMap fun c =>
    if c = '\\' then ['\\', '\\']
    else if c = '\n' then ['\\', 'n']
    else if c = '\r' then ['\\', 'r']
    else [c]

/-- A line of the list. -/
inductive DepInfoLine where
  | rule (target : String) (files : List String)
  | environment (name : String) (value : Option String)

/-- The text of a line. -/
def DepInfoLine.text : DepInfoLine → List Char
  | rule target files =>
    escapeSpaces target.toList ++ ':' :: files.flatMap fun file => ' ' :: escapeSpaces file.toList
  | environment name value =>
    recordStart.toList ++ (escapeEnvironment name.toList ++
      value.elim [] fun value => '=' :: escapeEnvironment value.toList)

/-- The text of a list. -/
def depInfoText (lines : List DepInfoLine) : String :=
  String.ofList (lines.flatMap fun line => line.text ++ ['\n'])

/-- The rules of a list. -/
def ruleLines (lines : List DepInfoLine) : List (String × List String) :=
  lines.filterMap fun line =>
    match line with
    | .rule target files => some (target, files)
    | .environment _ _ => none

/-- The variables of a list. -/
def environmentLines (lines : List DepInfoLine) : List (String × Option String) :=
  lines.filterMap fun line =>
    match line with
    | .rule _ _ => none
    | .environment name value => some (name, value)

/-- A path that can be read back. -/
structure Listable (path : List Char) : Prop where
  nonempty : path ≠ []
  whitespace (c : Char) (hc : c ∈ path) (hspace : isWhitespace c = true) : c = ' '
  last (c : Char) (hlast : path.getLast? = some c) : c ≠ ' ' ∧ c ≠ '\\'

instance (path : List Char) : Decidable (Listable path) :=
  decidable_of_iff (path ≠ [] ∧
    (path.all fun c => decide (isWhitespace c = true → c = ' ')) = true ∧
    path.getLast? ≠ some ' ' ∧ path.getLast? ≠ some '\\') <| by
    simp only [List.all_eq_true, decide_eq_true_eq]
    constructor
    · rintro ⟨hne, hspace, hblank, hbackslash⟩
      exact ⟨hne, hspace, fun c hlast =>
        ⟨fun heq => hblank (heq ▸ hlast), fun heq => hbackslash (heq ▸ hlast)⟩⟩
    · rintro ⟨hne, hspace, hlast⟩
      exact ⟨hne, hspace, fun h => (hlast _ h).1 rfl, fun h => (hlast _ h).2 rfl⟩

end MrBoxington.Rustc
