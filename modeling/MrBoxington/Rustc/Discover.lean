import MrBoxington.Lib.PosixResolve
import MrBoxington.Protocol.Hashing
import MrBoxington.Rustc.Invocation

/-!
# Discovering the inputs of a compilation

The inputs of a compilation are the files that the compiler lists, those that its arguments
name, and those in the directories that it searches for native libraries. Every path is
normalized as it is written before a file is opened.
-/

namespace MrBoxington.Rustc

open BuildScript (components)
open Paths (IsName Path fileName isAbsolute join normalizeComponents)
open PosixTree (Location Node Nodes realpath)
open Protocol (Bytes Digest Hasher)
open Strings

/-! ## The file system -/

/-- What a file holds. -/
inductive Contents where
  | regular (bytes : Bytes)
  /-- Anything that is neither a regular file nor a directory nor a link. -/
  | special
deriving DecidableEq

/-- Why a path leads nowhere. -/
inductive Fault where
  | notFound
  | other (message : String)
deriving DecidableEq

/-- The message of the system. -/
def Fault.message : Fault → String
  | notFound => "No such file or directory (os error 2)"
  | other message => message

/-- A file system that does not change. -/
structure Disk where
  tree : Nodes Contents
  /-- The names in a directory, in the order in which they are listed. -/
  names : Location → List String
  depth : ℕ
  canonicalize : Path → Option Location
  fault : Path → Fault
  /-- The names whose bytes are UTF-8. A name that is not is written by characters that stand for
  its bytes. -/
  unicode : String → Bool
  root : tree [] = some .dir
  mem_names : ∀ location name, name ∈ names location ↔ tree (location ++ [name]) ≠ none
  isName : ∀ location, tree location ≠ none → ∀ name ∈ location, IsName name
  length_le_depth : ∀ location, tree location ≠ none → location.length ≤ depth
  canonicalize_eq : ∀ path, canonicalize path = realpath tree [] path

/-- The contents of the regular file that a path leads to. -/
def Disk.read (disk : Disk) (path : Path) : Except BypassReason Bytes :=
  match disk.canonicalize path with
  | none => .error (.inputRead path (disk.fault path).message)
  | some location =>
    match disk.tree location with
    | some (.file (.regular bytes)) => .ok bytes
    | _ => .error (.inputRead path "input is not a regular file")

/-- What lies where, by a list. -/
abbrev Entries := List (Location × Node Contents)

/-- How deep the longest location of a list is. -/
def Entries.depth (entries : Entries) : ℕ :=
  entries.foldr (fun entry depth => max entry.1.length depth) 0

private theorem Entries.le_depth {entries : Entries} {entry : Location × Node Contents}
    (hmem : entry ∈ entries) : entry.1.length ≤ entries.depth := by
  induction entries with
  | nil => cases hmem
  | cons first rest ih =>
    rcases List.mem_cons.mp hmem with rfl | hmem
    · exact le_max_left _ _
    · exact (ih hmem).trans (le_max_right _ _)

private theorem Entries.lookup_ne_none {entries : Entries} {location : Location} :
    entries.lookup location ≠ none ↔ ∃ entry ∈ entries, entry.1 = location := by
  rw [← Option.isSome_iff_ne_none, List.lookup_isSome_iff]
  exact exists_congr fun entry => and_congr_right fun _ => by rw [beq_iff_eq, eq_comm]

/-- The file system with these entries. -/
noncomputable def Disk.ofEntries (entries : Entries) (hroot : entries.lookup [] = some .dir)
    (hnames : ∀ entry ∈ entries, ∀ name ∈ entry.1, IsName name) : Disk where
  tree location := entries.lookup location
  names location := entries.filterMap fun entry =>
    if entry.1.dropLast = location then entry.1.getLast? else none
  depth := entries.depth
  canonicalize := realpath (fun location => entries.lookup location) []
  fault _ := .notFound
  unicode _ := true
  root := hroot
  mem_names location name := by
    rw [Entries.lookup_ne_none, List.mem_filterMap]
    refine exists_congr fun entry => and_congr_right fun _ => ?_
    constructor
    · intro heq
      split at heq
      · rename_i hlocation
        rw [← hlocation]
        exact (List.dropLast_append_getLast? name heq).symm
      · cases heq
    · intro heq
      simp [heq]
  isName location hsome := by
    obtain ⟨entry, hmem, rfl⟩ := Entries.lookup_ne_none.mp hsome
    exact hnames entry hmem
  length_le_depth location hsome := by
    obtain ⟨entry, hmem, rfl⟩ := Entries.lookup_ne_none.mp hsome
    exact Entries.le_depth hmem
  canonicalize_eq _ := rfl

/-! ## Native directories -/

/-- A root that is replaced by a placeholder. -/
structure MappedRoot (π : Type) where
  root : π
  placeholder : String
deriving DecidableEq

/-- A mapping on a system with one tree. -/
abbrev PathMapping := MappedRoot Path

/-- The most inputs of a prediction. -/
def maxPredictedInputs : ℕ := 16 * 1024

/-- The most bytes in native directories. -/
def maxNativeInputBytes : ℕ := 2 * 1024 * 1024 * 1024

/-- The roots that native directories may lie in. -/
def nativeInputRoots (workingDir : Path) (mappings : List PathMapping) : List Path :=
  (workingDir :: mappings.map MappedRoot.root).map normalizeComponents

/-- A directory that no linker reads. -/
def isLinkerIrrelevantDirectory (name : String) : Bool :=
  name = "pkgconfig" ∨ name = "cmake" ∨ endsWith name ".dSYM"

/-- A file that no linker reads. -/
def isLinkerIrrelevantFile (name : String) : Bool :=
  (Paths.rsplitAtDot name).2.any fun extension =>
    ["pc", "cmake"].any fun ignored => Parser.eqIgnoreAsciiCase extension ignored

/-- What was found in native directories. -/
structure Collected where
  paths : List Path
  nativeBytes : ℕ
  counted : List Path

/-- The error of a native directory that is not modeled. -/
def unsupportedNative : BypassReason := .unsupportedSearchPath "native"

/-- Nothing exceeds its limit. -/
def Collected.check (collected : Collected) : Except BypassReason Collected :=
  if maxPredictedInputs < collected.paths.length ∨ maxNativeInputBytes < collected.nativeBytes then
    .error unsupportedNative
  else .ok collected

/-- Add a file. -/
def Collected.add (collected : Collected) (path : Path) (len : ℕ) :
    Except BypassReason Collected :=
  let paths := collected.paths.insert path
  if path ∈ collected.counted then .ok { collected with paths := paths }
  else if 18446744073709551616 ≤ collected.nativeBytes + len then .error unsupportedNative
  else .ok ⟨paths, collected.nativeBytes + len, path :: collected.counted⟩

section Walk

variable (disk : Disk) (canonicalRoot : Location)

/-- The length of a file in a native directory. A link leads to a regular file below the
directory. -/
def entryLength (path : Path) (location : Location) : Except BypassReason ℕ :=
  match disk.tree location with
  | some (.file (.regular bytes)) => .ok bytes.length
  | some (.link _) =>
    match disk.canonicalize path with
    | none => .error (.inputRead path (disk.fault path).message)
    | some resolved =>
      match disk.tree resolved with
      | some (.file (.regular bytes)) =>
        if canonicalRoot.isPrefixOf resolved then .ok bytes.length else .error unsupportedNative
      | _ => .error unsupportedNative
  | _ => .error unsupportedNative

/-- An entry of a native directory is left for later or added. -/
def visitEntry (directory : Path) (location : Location)
    (state : List (Path × Location) × Collected) (name : String) :
    Except BypassReason (List (Path × Location) × Collected) :=
  let path := directory ++ [.down name]
  if disk.tree (location ++ [name]) = some .dir then
    .ok (if isLinkerIrrelevantDirectory name then state.1
      else (path, location ++ [name]) :: state.1, state.2)
  else do
    let len ← entryLength disk canonicalRoot path (location ++ [name])
    let collected ← state.2.add path len
    return (state.1, collected)

/-- One entry of a native directory, with the directories that are left to look at. -/
def visit (directory : Path) (location : Location) (state : List (Path × Location) × Collected)
    (name : String) : Except BypassReason (List (Path × Location) × Collected) :=
  if disk.tree (location ++ [name]) ≠ some .dir ∧ isLinkerIrrelevantFile name then .ok state
  else do
    let after ← visitEntry disk canonicalRoot directory location state name
    let collected ← after.2.check
    return (after.1, collected)

/-- The files below a native directory. The directories below one are looked at after all of
its entries, the last one first. -/
def collectBelow : ℕ → Path → Location → Collected → Except BypassReason Collected
  | 0, _, _, _ => .error unsupportedNative
  | depth + 1, directory, location, collected => do
    let (pending, collected) ←
      (disk.names location).foldlM (visit disk canonicalRoot directory location) ([], collected)
    pending.foldlM (fun collected next => collectBelow depth next.1 next.2 collected) collected

end Walk

/-- The files in a native directory. -/
def collectNativeDirectory (disk : Disk) (roots : List Path) (collected : Collected)
    (directory : Path) : Except BypassReason Collected :=
  if roots.any fun root => Paths.startsWith (normalizeComponents directory) root then
    match disk.canonicalize (normalizeComponents directory) with
    | none =>
      match disk.fault (normalizeComponents directory) with
      | .notFound => .ok collected
      | .other message => .error (.inputRead (normalizeComponents directory) message)
    | some location =>
      if disk.tree location = some .dir then
        collectBelow disk location (disk.depth + 1) (normalizeComponents directory) location
          collected
      else .error (.inputRead (normalizeComponents directory) "Not a directory (os error 20)")
  else .error unsupportedNative

/-! ## Discovery -/

/-- What the compiler lists: files, and variables of the environment with their values. -/
structure RustcDepInfo where
  files : List Path
  environment : List (String × Option String)

/-- An input of an action. -/
structure ActionInput where
  path : Path
  digest : Digest
deriving DecidableEq

/-- The inputs of a compilation. -/
structure DiscoveredInputs where
  workingDir : Path
  inputs : List ActionInput
  environment : List (String × Option String)
  /-- The inputs that are there only because a native directory holds them. -/
  nativeOnly : List Path

/-- Digests of files: the hash functions, and what was recorded in the session for the files as
they are. -/
structure Digests where
  hasher : Hasher
  recorded : Path → Option Digest

/-- The digest of contents. -/
def Digests.blake3 (digests : Digests) (bytes : Bytes) : Digest :=
  ⟨"blake3", digests.hasher .blake3 bytes, bytes.length⟩

/-- The digest of a file: the one that is recorded, if it has the length of the file. -/
def Digests.ofFile (digests : Digests) (path : Path) (bytes : Bytes) : Digest :=
  match digests.recorded path with
  | some digest => if digest.size = bytes.length then digest else digests.blake3 bytes
  | none => digests.blake3 bytes

/-- The inputs at these paths. -/
def fromPaths (disk : Disk) (digests : Digests) (workingDir : Path) (paths : List Path)
    (environment : List (String × Option String)) (nativeOnly : List Path) :
    Except BypassReason DiscoveredInputs :=
  if isAbsolute workingDir then do
    let inputs ← paths.mapM fun path => do
      let bytes ← disk.read path
      return (⟨path, digests.ofFile path bytes⟩ : ActionInput)
    return ⟨normalizeComponents workingDir, inputs, environment, nativeOnly⟩
  else .error (.relativeWorkingDirectory workingDir)

/-- The path from a directory, normalized as it is written. -/
def absolute (workingDir path : Path) : Path := normalizeComponents (join workingDir path)

namespace RustcInvocation

variable (invocation : RustcInvocation)

/-- The native directories that the arguments name. -/
def nativeSearchPaths : List Path := invocation.arguments.filterMap Parser.nativeDirectory

/-- The files in the native directories that the arguments name, if mappings are given. -/
def collectNative (disk : Disk) (workingDir : Path) (mappings : Option (List PathMapping))
    (collected : Collected) : Except BypassReason Collected :=
  match mappings with
  | none => .ok collected
  | some mappings =>
    invocation.nativeSearchPaths.foldlM (fun collected path =>
      collectNativeDirectory disk (nativeInputRoots workingDir mappings) collected
        (join workingDir path)) collected

/-- The files that the compiler lists and those that the arguments name. -/
def namedPaths (workingDir : Path) (depInfo : RustcDepInfo) : List Path :=
  (depInfo.files.map (absolute workingDir) ++
    invocation.requiredInputs.map (absolute workingDir)).dedup

/-- The paths that are there only because a native directory holds them. -/
def nativeOnly (workingDir : Path) (depInfo : RustcDepInfo) (paths : List Path) : List Path :=
  paths.filter fun path =>
    path ∉ depInfo.files.map (absolute workingDir) ∧
      invocation.nativeSearchPaths.any fun root =>
        Paths.startsWith path (absolute workingDir root)

/-- The inputs of the invocation. Native directories are looked at if mappings are given. -/
def discover (disk : Disk) (digests : Digests) (depInfo : RustcDepInfo) (workingDir : Path)
    (mappings : Option (List PathMapping)) : Except BypassReason DiscoveredInputs :=
  if isAbsolute workingDir then do
    let directory := normalizeComponents workingDir
    let collected ← invocation.collectNative disk directory mappings
      ⟨invocation.namedPaths directory depInfo, 0, []⟩
    fromPaths disk digests directory collected.paths depInfo.environment
      (invocation.nativeOnly directory depInfo collected.paths)
  else .error (.relativeWorkingDirectory workingDir)

end RustcInvocation

end MrBoxington.Rustc
