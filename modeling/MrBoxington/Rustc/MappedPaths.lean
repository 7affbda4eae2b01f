import Mathlib.Data.List.Sort
import MrBoxington.Rustc.Discover

/-!
# Paths in keys

A key holds no path of the machine: every path is written from the placeholder of a root that
it lies below, with links followed in the path and in the roots. A prediction is read back by
joining what follows the placeholder to the root as it was given.
-/

namespace MrBoxington.Rustc

open Paths (Path VolumePath)
open PosixTree (Location)
open Strings

variable {π : Type}

/-! ## Platforms -/

/-- What a platform makes of paths. -/
structure Platform (π : Type) where
  isAbsolute : π → Bool
  normalizeComponents : π → π
  count : π → ℕ
  push : π → String → π

/-- Paths below one root. -/
def unix : Platform Path where
  isAbsolute := Paths.isAbsolute
  normalizeComponents := Paths.normalizeComponents
  count := List.length
  push path component := path ++ [.down component]

/-- Paths with drives. -/
def windows : Platform VolumePath where
  isAbsolute := VolumePath.isAbsolute
  normalizeComponents := VolumePath.normalizeComponents
  count path := path.volume.toList.length + path.steps.length
  push := VolumePath.push

/-! ## Mappings -/

/-- The mappings with the deepest root first. -/
def ordered (platform : Platform π) (mappings : List (MappedRoot π)) : List (MappedRoot π) :=
  mappings.insertionSort fun left right => platform.count right.root ≤ platform.count left.root

/-- The mappings with links followed in their roots. -/
def resolvePathMappings (resolveMappingRoot : π → π) (mappings : List (MappedRoot π)) :
    List (MappedRoot π) :=
  mappings.map fun mapping => ⟨resolveMappingRoot mapping.root, mapping.placeholder⟩

/-- The mappings of an action. -/
def builderMappings (platform : Platform π) (resolveMappingRoot : π → π)
    (mappings : List (MappedRoot π)) : List (MappedRoot π) :=
  resolvePathMappings resolveMappingRoot (ordered platform mappings)

/-- Why mappings are refused. -/
inductive MappingFault (π : Type) where
  | relativeWorkingDirectory (path : π)
  | relativePathMapping (root : π)
  | invalidPathPlaceholder (placeholder : String)
deriving DecidableEq

/-- The reason to give up that a fault is. -/
def MappingFault.reason : MappingFault Path → BypassReason
  | relativeWorkingDirectory path => .relativeWorkingDirectory path
  | relativePathMapping root => .relativePathMapping root
  | invalidPathPlaceholder placeholder => .invalidPathPlaceholder placeholder

/-- A placeholder is made of letters, digits and underscores. -/
def isPlaceholder (placeholder : String) : Bool :=
  placeholder ≠ "" ∧ placeholder.toList.all fun c => c.isAlphanum || c = '_'

/-- The rest of the mappings is accepted after these roots and placeholders. -/
def checkMappings [DecidableEq π] (platform : Platform π) :
    List π → List String → List (MappedRoot π) → Except (MappingFault π) Unit
  | _, _, [] => .ok ()
  | roots, placeholders, mapping :: rest =>
    if platform.isAbsolute mapping.root then
      if isPlaceholder mapping.placeholder ∧
          platform.normalizeComponents mapping.root ∉ roots ∧
          mapping.placeholder ∉ placeholders then
        checkMappings platform (platform.normalizeComponents mapping.root :: roots)
          (mapping.placeholder :: placeholders) rest
      else .error (.invalidPathPlaceholder mapping.placeholder)
    else .error (.relativePathMapping mapping.root)

/-- The working directory and the mappings of an action are accepted. -/
def validateMappings [DecidableEq π] (platform : Platform π) (resolveMappingRoot : π → π)
    (workingDir : π) (mappings : List (MappedRoot π)) : Except (MappingFault π) Unit :=
  if platform.isAbsolute workingDir then
    checkMappings platform [] [] (builderMappings platform resolveMappingRoot mappings)
  else .error (.relativeWorkingDirectory workingDir)

/-! ## Links -/

/-- The most names of a directory that are remembered. -/
def maxDirectoryEntries : ℕ := 256

/-- The path to a location. -/
def locationPath (location : Location) : Path := .top :: location.map .down

/-- The names of a directory that are remembered. -/
def Disk.listing (disk : Disk) (location : Location) : List String :=
  if disk.tree location = some .dir then (disk.names location).take maxDirectoryEntries else []

/-- There is a link at a location. -/
def Disk.isLink (disk : Disk) (location : Location) : Bool :=
  match disk.tree location with
  | some (.link _) => true
  | _ => false

/-- What a path leads to, by its directory and the names that are remembered of it. -/
def Disk.canonicalizeAlias (disk : Disk) (path : Path) : Option Location :=
  match Paths.parent path, Paths.fileName path with
  | some parent, some name =>
    if parent = [] then disk.canonicalize path
    else
      (disk.canonicalize parent).bind fun resolved =>
        if name ∈ disk.listing resolved ∧ disk.isLink (resolved ++ [name]) = false then
          some (resolved ++ [name])
        else disk.canonicalize (locationPath (resolved ++ [name]))
  | _, _ => disk.canonicalize path

/-- The path with links followed as far as there is something. What is left to try is given from
its end, with the names that were taken from it. -/
def Disk.resolveFrom (disk : Disk) (path reversed : Path) (missing : List String) : Path :=
  match disk.canonicalizeAlias reversed.reverse with
  | some resolved => Paths.normalizeComponents (locationPath (resolved ++ missing))
  | none =>
    match reversed with
    | .down name :: rest => disk.resolveFrom path rest (name :: missing)
    | _ => path

/-- The path with links followed, and what does not exist as it is written. -/
def Disk.resolvePathAliases (disk : Disk) (path : Path) : Path :=
  disk.resolveFrom path path.reverse []

/-- The root of a mapping with links followed. -/
def Disk.resolveMappingRoot (disk : Disk) (root : Path) : Path :=
  if Paths.isAbsolute (Paths.normalizeComponents root) then
    disk.resolvePathAliases (Paths.normalizeComponents root)
  else Paths.normalizeComponents root

/-! ## Texts -/

/-- The text of a placeholder. -/
def placeholderText (placeholder : String) : String := "$\x7b" ++ placeholder ++ "\x7d"

/-- The names of a path with slashes between them. -/
def slashPath (path : Path) : String :=
  join (path.filterMap fun step => match step with
    | .down name => some name
    | _ => none) '/'

/-- All names of a path are text. -/
def Disk.isText (disk : Disk) (path : Path) : Bool :=
  path.all fun step => match step with
    | .down name => disk.unicode name
    | _ => true

def Disk.slashPath (disk : Disk) (path : Path) : Except BypassReason String :=
  if disk.isText path then .ok (Rustc.slashPath path) else .error (.nonUtf8Path path)

/-- The text of a path below a root. -/
def mappedText (placeholder suffix : String) : String :=
  if suffix = "" then placeholderText placeholder
  else placeholderText placeholder ++ "/" ++ suffix

/-- The text of a path, by the first root that it lies below. -/
def normalizeResolvedMappedPath (disk : Disk) (path workingDir : Path)
    (mappings : List PathMapping) : Except BypassReason String :=
  let absolute := Paths.normalizeComponents (Paths.join workingDir path)
  let resolved := if Paths.isAbsolute absolute then disk.resolvePathAliases absolute else absolute
  match mappings.findSome? fun mapping =>
      (Paths.stripPrefix resolved mapping.root).map fun relative =>
        (mapping.placeholder, relative) with
  | some (placeholder, relative) => (disk.slashPath relative).map (mappedText placeholder)
  | none => .error (.unmappedAbsolutePath absolute)

/-- The text of a path in the key of an action. -/
def normalizePath (disk : Disk) (workingDir : Path) (mappings : List PathMapping) (path : Path) :
    Except BypassReason String :=
  normalizeResolvedMappedPath disk path workingDir
    (builderMappings unix disk.resolveMappingRoot mappings)

/-- What follows a placeholder in a text. -/
def suffixOf (value placeholder : String) : Option String :=
  if value = placeholderText placeholder then some ""
  else stripPrefix value (placeholderText placeholder ++ "/")

/-- A part of a predicted path that is refused. -/
def refusesComponent (component : String) : Bool :=
  component = "" ∨ component = "." ∨ component = ".." ∨ '\\' ∈ component.toList

/-- The path that a text stands for. -/
def denormalizeWith (platform : Platform π) (value : String) :
    List (MappedRoot π) → Except BypassReason π
  | [] => .error (.invalidPredictedInput value)
  | mapping :: rest =>
    match suffixOf value mapping.placeholder with
    | none => denormalizeWith platform value rest
    | some suffix =>
      if platform.isAbsolute mapping.root ∧
          (suffix = "" ∨ (split suffix '/').all fun component => !refusesComponent component) then
        .ok (((split suffix '/').filter (· ≠ "")).foldl platform.push
          (platform.normalizeComponents mapping.root))
      else .error (.invalidPredictedInput value)

/-- The path that a text of a key stands for. -/
def denormalizePath (value : String) (mappings : List PathMapping) : Except BypassReason Path :=
  denormalizeWith unix value mappings

end MrBoxington.Rustc
