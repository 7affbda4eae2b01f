import MrBoxington.Lib.PathMoves

/-!
# Removing the build units no build has used

A Cargo profile holds units in two layouts. In the old one `.fingerprint/<unit>` vouches for
the outputs in `deps` and `build/<package>-<hash>`, which belong to all units together. In the
new one each unit has a directory `build/<package>/<hash>` with its own `fingerprint` in it.
The paths here are relative to the profile. Times are read without errors; the listing of a
directory, a rename, the removal of an empty directory and a deletion may fail.
-/

namespace MrBoxington.Target.Units

open PathMoves

/-- What is at a path: a directory or not, with its times, and whether it can be listed. -/
structure Node where
  directory : Bool
  accessed : ℤ
  modified : ℤ
  listable : Bool
deriving DecidableEq, Repr

/-- The entries of a profile directory. -/
abbrev Tree := List (List String × Node)

/-- The later of two times. -/
def later (a b : ℤ) : ℤ := if a ≤ b then b else a

/-- The latest of some times, if there are any. -/
def latest : List ℤ → Option ℤ
  | [] => none
  | time :: times => some ((latest times).elim time (later time))

def present (tree : Tree) (path : List String) : Bool := !(entriesAt tree path).isEmpty

def isDir (tree : Tree) (path : List String) : Bool :=
  (entriesAt tree path).any fun entry => entry.2.directory

def modified (tree : Tree) (path : List String) : Option ℤ :=
  (entriesAt tree path).head?.map fun entry => entry.2.modified

def listable (tree : Tree) (directory : List String) : Bool :=
  (entriesAt tree directory).all fun entry => entry.2.listable

/-- A directory that cannot be listed is taken for an empty one. -/
def listing (tree : Tree) (directory : List String) : Tree :=
  if listable tree directory then children tree directory else []

def subdirectories (tree : Tree) (directory : List String) : List (List String) :=
  ((listing tree directory).filter fun entry => entry.2.directory).map Prod.fst

/-- The latest access or modification of anything directly in a directory, or of the directory
itself. `clock` stands in for what cannot be read. -/
def lastUse (clock : ℤ) (tree : Tree) (directory : List String) : ℤ :=
  if isDir tree directory && listable tree directory then
    (children tree directory).foldl
      (fun latest entry => later (later latest entry.2.accessed) entry.2.modified)
      ((modified tree directory).getD clock)
  else clock

def isAsciiHexdigit (c : Char) : Bool :=
  ('0' ≤ c ∧ c ≤ '9') ∨ ('a' ≤ c ∧ c ≤ 'f') ∨ ('A' ≤ c ∧ c ≤ 'F')

/-- Whether a name ends in a dash and sixteen hexadecimal digits. -/
def hasHashSuffix (name : String) : Bool :=
  let hash := name.toList.reverse.takeWhile (· ≠ '-')
  '-' ∈ name.toList && hash.length = 16 && hash.all isAsciiHexdigit

/-- Whether a directory in `build` is a unit of the old layout, rather than a package of the
new one. -/
def isOldUnit (tree : Tree) (directory : List String) : Bool :=
  (directory.getLast?.any hasHashSuffix) &&
    !(subdirectories tree directory).any fun child => isDir tree (child ++ ["fingerprint"])

section Unused

variable (clock cutoff : ℤ) (tree : Tree)

/-- The latest use of any unit of the old layout. -/
def oldLastUse : Option ℤ :=
  (latest ((subdirectories tree [".fingerprint"]).map (lastUse clock tree))).or
    (modified tree [".fingerprint"])

/-- The units of the old layout in `build`. -/
def oldUnits : List (List String) := (subdirectories tree ["build"]).filter (isOldUnit tree)

/-- The unused units of the old layout, counted, and the paths that hold them. Without
`.fingerprint` the outputs are what an interrupted removal left. -/
def unusedOld : ℕ × List (List String) :=
  if (oldLastUse clock tree).any (· < cutoff) then
    ((subdirectories tree [".fingerprint"]).length,
      [".fingerprint"] :: ((if isDir tree ["deps"] then [["deps"]] else []) ++ oldUnits tree))
  else if !present tree [".fingerprint"] then
    (0, (if (listing tree ["deps"]).isEmpty then [] else [["deps"]]) ++ oldUnits tree)
  else (0, [])

/-- The unused units of the new layout. -/
def unusedNew : List (List String) :=
  (subdirectories tree ["build"]).flatMap fun package =>
    (subdirectories tree package).filter fun unit =>
      isDir tree (unit ++ ["fingerprint"]) &&
        lastUse clock tree (unit ++ ["fingerprint"]) < cutoff

/-- The unused units in a profile, counted, and the paths that hold them. -/
def unused : ℕ × List (List String) :=
  ((unusedOld clock cutoff tree).1 + (unusedNew clock cutoff tree).length,
    (unusedOld clock cutoff tree).2 ++ unusedNew clock cutoff tree)

end Unused

/-- What the names of directories start with that hold units on their way out. -/
def removalPrefix : String := ".mbx-removing-"

def isRemoval (name : String) : Bool := removalPrefix.toList.isPrefixOf name.toList

def inRemoval (path : List String) : Bool := path.head?.any isRemoval

/-- The directory a process moves units to. -/
def removalOf (pid : ℕ) : String := removalPrefix ++ toString pid

/-- Which of the operations of one removal fail, by the index of the path. -/
structure Faults where
  rename : ℕ → Bool
  removeDir : ℕ → Bool

/-- Create a directory in the profile unless it is there. -/
def createDir (name : String) (node : Node) (tree : Tree) : Tree :=
  if present tree [name] then tree else ([name], node) :: tree

/-- Remove the package a unit was moved out of, if the package is empty. A package is a
directory in one named `build`; `profile` is where the profile itself lies. -/
def removePackage (profile path : List String) (fails : Bool) (tree : Tree) : Tree :=
  if !fails && (profile ++ path.dropLast).dropLast.getLast? = some "build" then
    PathMoves.removeDir path.dropLast tree
  else tree

/-- Move the doomed paths to the removal directory one after another: every tree on the way,
and the last one if no rename fails. -/
def moves (profile : List String) (removal : String) (faults : Faults) :
    ℕ → List (List String) → Tree → List Tree × Option Tree
  | _, [], tree => ([tree], some tree)
  | index, path :: rest, tree =>
    if faults.rename index then ([tree], none)
    else
      match PathMoves.rename path [removal, toString index] tree with
      | none => ([tree], none)
      | some moved =>
        let next := moves profile removal faults (index + 1) rest
          (removePackage profile path (faults.removeDir index) moved)
        (tree :: moved :: next.1, next.2)

/-- What one run of `prune` is given for a profile. -/
structure Run where
  profile : List String
  pid : ℕ
  dryRun : Bool
  clock : ℤ
  cutoff : ℤ
  /-- The removal directory, where the run creates it. -/
  created : Node
  faults : Faults

/-- The paths a run removes from the profile it finds after the abandoned removals. -/
def Run.doomed (run : Run) (tree : Tree) : List (List String) :=
  (unused run.clock run.cutoff tree).2

/-- How a run goes through the doomed paths. -/
def Run.moves (run : Run) (tree : Tree) : List Tree × Option Tree :=
  Units.moves run.profile (removalOf run.pid) run.faults 0 (run.doomed tree)
    (createDir (removalOf run.pid) run.created tree)

/-- The trees at which a run of `prune` can crash, fail or end. A deletion stops with any part
of what it was to delete still there. -/
inductive PrunePoint (run : Run) (tree : Tree) : Tree → Prop
  | start : PrunePoint run tree tree
  | clearing {cleared : Tree} (hrun : run.dryRun = false)
      (hcleared : Pruned inRemoval tree cleared) : PrunePoint run tree cleared
  | moving {cleared point : Tree} (hrun : run.dryRun = false)
      (hcleared : Pruned inRemoval tree cleared) (hdoomed : run.doomed cleared ≠ [])
      (hpoint : point ∈ (run.moves cleared).1) : PrunePoint run tree point
  | deleting {cleared moved point : Tree} (hrun : run.dryRun = false)
      (hcleared : Pruned inRemoval tree cleared) (hdoomed : run.doomed cleared ≠ [])
      (hmoved : (run.moves cleared).2 = some moved)
      (hpoint : Pruned (fun path => [removalOf run.pid].isPrefixOf path) moved point) :
      PrunePoint run tree point

/-- A profile directory: one entry at a path, and every entry in a directory. `oldUnits` are the
directories in `build` that are units of the old layout; the others are packages. -/
structure Profile where
  tree : Tree
  oldUnits : List String
  nodup : (tree.map Prod.fst).Nodup
  closed : ∀ entry ∈ tree, entry.1 ≠ [] ∧
    (entry.1.dropLast ≠ [] → isDir tree entry.1.dropLast = true)

/-- The paths of the outputs that the fingerprints of the old layout vouch for. -/
def IsOldOutput (whole : Profile) (path : List String) : Prop :=
  ["deps"] <+: path ∨ ∃ name ∈ whole.oldUnits, ["build", name] <+: path

/-- Neither of two paths lies in the other. -/
def Apart (a b : List String) : Prop := ¬ a <+: b ∧ ¬ b <+: a

/-- Each fingerprint that is still at its path vouches for outputs that are all still there. -/
structure Vouched (whole : Profile) (point : Tree) : Prop where
  old : ∀ unit, isDir whole.tree [".fingerprint", unit] → present point [".fingerprint", unit] →
    ∀ entry ∈ whole.tree, IsOldOutput whole entry.1 → entry ∈ point
  new : ∀ package unit, isDir whole.tree ["build", package, unit, "fingerprint"] →
    present point ["build", package, unit, "fingerprint"] →
    ∀ entry ∈ whole.tree, ["build", package, unit] <+: entry.1 → entry ∈ point

/-- What was used at or after the cutoff has lost nothing. -/
structure UsedKept (clock cutoff : ℤ) (whole : Profile) (point : Tree) : Prop where
  old : ∀ unit, isDir whole.tree [".fingerprint", unit] →
    cutoff ≤ lastUse clock whole.tree [".fingerprint", unit] →
    ∀ entry ∈ whole.tree, IsOldOutput whole entry.1 → entry ∈ point
  new : ∀ package unit, package ∉ whole.oldUnits →
    isDir whole.tree ["build", package, unit, "fingerprint"] →
    cutoff ≤ lastUse clock whole.tree ["build", package, unit, "fingerprint"] →
    ∀ entry ∈ whole.tree, ["build", package, unit] <+: entry.1 → entry ∈ point

/-- The profile is one whose units are told apart. -/
structure ToldApart (clock cutoff : ℤ) (whole : Profile) : Prop where
  /-- The fingerprints of the old layout can be listed. -/
  fingerprints : listable whole.tree [".fingerprint"] = true
  /-- A package that is named like a unit of the old layout can be listed. -/
  packages : ∀ package unit, package ∉ whole.oldUnits → hasHashSuffix package = true →
    isDir whole.tree ["build", package, unit, "fingerprint"] →
    listable whole.tree ["build", package] = true
  /-- While the old layout is in use, so is every directory in one of its units that lies where
  a fingerprint of the new layout would. -/
  strays : ∀ unit, isDir whole.tree [".fingerprint", unit] →
    cutoff ≤ lastUse clock whole.tree [".fingerprint", unit] →
    ∀ name ∈ whole.oldUnits, ∀ child, isDir whole.tree ["build", name, child, "fingerprint"] →
      cutoff ≤ lastUse clock whole.tree ["build", name, child, "fingerprint"]

end MrBoxington.Target.Units
