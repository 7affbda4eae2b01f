import Mathlib.Data.List.Sort
import MrBoxington.Lib.Scan
import MrBoxington.Protocol.Hashing

/-!
# The action descriptor of a documentation run

The descriptor of a documentation run names the compiler, its arguments, the
environment and the contents of every input file. Input files are found by walking
the input root, which is the workspace or the package, and in the arguments.
-/

namespace MrBoxington.Rustdoc

open Protocol (Bytes Digest DigestAlgorithm Hasher asciiBytes)

/-- The name of a directory entry. It need not be text. -/
abbrev FileName := Bytes

/-- The components of a path. -/
abbrev Path := List FileName

mutual

/-- What a directory entry is. -/
inductive Node where
  | file (contents : Bytes)
  | dir (entries : Entries)
  | symlink
  | other

/-- The entries of a directory in the order in which they are listed. -/
inductive Entries where
  | nil
  | cons (name : FileName) (node : Node) (rest : Entries)

end

/-- The names of the entries. -/
def Entries.names : Entries → List FileName
  | .nil => []
  | .cons name _ rest => name :: rest.names

mutual

/-- The regular file at a path below a directory entry. -/
def Node.fileAt : Node → Path → Option Bytes
  | .file contents, [] => some contents
  | .dir entries, path => entries.fileAt path
  | _, _ => none

/-- The regular file at a path below a directory. -/
def Entries.fileAt : Entries → Path → Option Bytes
  | .nil, _ => none
  | .cons _ _ _, [] => none
  | .cons name node rest, first :: path =>
    if name = first then node.fileAt path else rest.fileAt (first :: path)

end

mutual

/-- The names in every directory are distinct. -/
def Node.Distinct : Node → Prop
  | .dir entries => entries.Distinct
  | _ => True

/-- The names in a directory and in every directory below it are distinct. -/
def Entries.Distinct : Entries → Prop
  | .nil => True
  | .cons name node rest => name ∉ rest.names ∧ node.Distinct ∧ rest.Distinct

end

/-- A path with its text. -/
structure TextPath where
  text : String
  path : Path

/-- Everything that a descriptor depends on apart from the input root. -/
structure Setting where
  identity : Except String String
  arguments : List String
  manifest : TextPath
  vars : List (String × String)
  target : Option TextPath
  workspace : Option TextPath

/-- The record that an action is named by. -/
structure ActionDescriptor where
  adapter : String
  version : ℕ
  rustdoc : String
  arguments : List String
  environment : List (String × String)
  inputs : List (String × Digest)

/-- What comes from libraries and the operating system. -/
structure Host where
  lossy : Bytes → String
  hasher : Hasher
  absolute : String → String
  /-- The contents of the regular file that a path in the arguments leads to, given the
  input root. -/
  readFile : Entries → String → Option Bytes
  canonicalJson : ActionDescriptor → Bytes

/-- The digests of the input files so far. -/
abbrev Inputs := Std.TreeMap String Digest

section Texts

/-- Replace every occurrence of a text, from left to right. -/
def replace (value pattern replacement : String) : String :=
  String.ofList (Scan.scan
    (Scan.replaceFirst (fun _ => true) [(pattern.toList, replacement.toList)]) value.toList)

/-- Replace the roots in a text by their keys. -/
def normalize (value : String) (mappings : List (String × String)) : String :=
  mappings.foldl (fun value mapping => replace value mapping.1 mapping.2) value

/-- The roots with their keys, longest first. -/
def pathMappings (setting : Setting) : List (String × String) :=
  let roots := (setting.target.toList.map fun root => (root.text, "$\x7btarget\x7d")) ++
    (setting.workspace.toList.map fun root => (root.text, "$\x7bworkspace\x7d")) ++
    [(setting.manifest.text, "$\x7bpackage\x7d")]
  roots.insertionSort fun left right => right.1.utf8ByteSize ≤ left.1.utf8ByteSize

/-- Variables that mbx sets for its own use. -/
def removedEnvironment : List String :=
  ["CARGO_MAKEFLAGS", "MBX_BUILD", "MBX_CC_SHIM_COMPILERS", "MBX_LEARNED_INCREMENTAL",
    "MBX_REAL_CC", "MBX_REAL_CXX", "MBX_REAL_RUSTDOC", "MBX_SCHED_DIR", "MBX_SCHED_PRIORITY",
    "MBX_SCHED_SLOT_BYTES", "MBX_SCHED_SLOTS", "MBX_SHARE_OUT_DIR", "MBX_SOCKET",
    "MBX_STAGING_DIR", "MBX_VERIFY", "RUSTC_WRAPPER", "RUSTC_BOOTSTRAP", "RUSTDOC"]

/-- Variables that say where a command runs. -/
def hostEnvironment : List String :=
  ["_", "CI", "CARGO_HOME", "CODEBUILD_BUILD_ID", "COMSPEC", "GITHUB_ACTIONS", "HOME", "HOSTNAME",
    "NUMBER_OF_PROCESSORS", "OLDPWD", "PATH", "PATHEXT", "PWD", "RUSTUP_HOME", "SHLVL",
    "SYSTEMROOT", "TEMP", "TMP", "TMPDIR", "USER", "USERDOMAIN", "USERNAME", "USERPROFILE"]

/-- Beginnings of the names of such variables. -/
def hostEnvironmentPrefixes : List String :=
  ["ACTIONS_", "BUILDKITE_", "CIRCLE_", "GITHUB_", "JENKINS_", "RUNNER_", "TEAMCITY_", "TF_BUILD"]

/-- The variables that a run depends on. -/
def actionEnvironment (vars mappings : List (String × String)) : List (String × String) :=
  let kept := vars.filter fun (name, _) =>
    !name.startsWith "MBX_" && !removedEnvironment.contains name &&
      !hostEnvironment.contains name &&
      !hostEnvironmentPrefixes.any fun start => name.startsWith start
  (kept.foldl (fun map (name, value) => map.insert name (normalize value mappings))
    (∅ : Std.TreeMap String String)).toList

end Texts

section Walk

variable (host : Host) (root : Path) (portableRoot : String) (excluded : Option Path)

/-- The digest of a file. -/
def blake3File (contents : Bytes) : Digest :=
  ⟨DigestAlgorithm.blake3.asStr, host.hasher .blake3 contents, contents.length⟩

/-- The text of a path below the input root. -/
def relativeText (path : Path) : String := host.lossy ((asciiBytes "/").intercalate path)

/-- The key of an input file. -/
def inputKey (path : Path) : String := portableRoot ++ "/" ++ relativeText host path

/-- The entry lies in the configured target directory. -/
def isExcluded (path : Path) : Bool :=
  match excluded with
  | none => false
  | some excluded => excluded.isPrefixOf (root ++ path)

/-- The name of target directories. -/
def targetName : FileName := asciiBytes "target"

/-- The name of directories of version control. -/
def gitName : FileName := asciiBytes ".git"

/-- A directory or a link. -/
def Node.isDirOrSymlink : Node → Bool
  | .dir _ => true
  | .symlink => true
  | _ => false

mutual

/-- Collect what lies at a path, which is not excluded. -/
def collectNode (path : Path) (name : FileName) : Node → Inputs → Except String Inputs
  | .symlink, _ =>
    .error ("rustdoc input tree contains a symbolic link: " ++
      host.lossy ((asciiBytes "/").intercalate (root ++ path)))
  | .dir entries, inputs =>
    if name = gitName then .ok inputs else collectTree path entries inputs
  | .file contents, inputs =>
    .ok (inputs.insert (inputKey host portableRoot path) (blake3File host contents))
  | .other, inputs => .ok inputs

/-- Collect the entries of a directory. Generated output is left out by its name and by
the configured location. -/
def collectTree (directory : Path) : Entries → Inputs → Except String Inputs
  | .nil, inputs => .ok inputs
  | .cons name node rest, inputs =>
    if (name = targetName ∧ node.isDirOrSymlink) ∨
        isExcluded root excluded (directory ++ [name]) then
      collectTree directory rest inputs
    else
      match collectNode (directory ++ [name]) name node inputs with
      | .error failure => .error failure
      | .ok inputs => collectTree directory rest inputs

end

end Walk

section Arguments

/-- The flags with the path of an input file. -/
def pathFlags : List String :=
  ["--extend-css", "--index-page", "--markdown-css", "--html-in-header", "--html-before-content",
    "--html-after-content", "--theme", "--with-examples"]

/-- What follows a text. -/
def afterText (start text : String) : Option String :=
  if start.toList.isPrefixOf text.toList then
    some (String.ofList (text.toList.drop start.toList.length))
  else none

/-- The artifact of an extern argument: what follows the first equals sign. -/
def externArtifact (value : String) : Except String String :=
  match value.toList.dropWhile (· ≠ '=') with
  | [] => .error "rustdoc --extern has no artifact"
  | _ :: path => .ok (String.ofList path)

/-- The paths of input files in the arguments, up to the first argument that cannot be
understood. -/
def argumentPaths : List String → List (Except String String)
  | [] => []
  | text :: rest =>
    match afterText "--extern=" text,
      pathFlags.findSome? fun flag => afterText (flag ++ "=") text with
    | some value, _ => externArtifact value :: argumentPaths rest
    | none, some path => .ok path :: argumentPaths rest
    | none, none =>
      if text = "--extern" ∨ text ∈ pathFlags then
        match rest with
        | [] =>
          if text = "--extern" then [.error "rustdoc --extern has no UTF-8 value"]
          else [.error "rustdoc path flag has no UTF-8 value"]
        | value :: rest =>
          (if text = "--extern" then externArtifact value else .ok value) :: argumentPaths rest
      else argumentPaths rest

/-- Collect the input files in the arguments. -/
def collectArgumentInputs (host : Host) (tree : Entries) (mappings : List (String × String)) :
    List (Except String String) → Inputs → Except String Inputs
  | [], inputs => .ok inputs
  | .error failure :: _, _ => .error failure
  | .ok path :: rest, inputs =>
    match host.readFile tree path with
    | none => .error ("rustdoc input is not a file: " ++ path)
    | some contents =>
      collectArgumentInputs host tree mappings rest
        (inputs.insert (normalize (host.absolute path) mappings) (blake3File host contents))

end Arguments

/-- The workspace if it contains the package, and the package otherwise. -/
def Setting.inputRoot (setting : Setting) : Path × String :=
  match setting.workspace with
  | some workspace =>
    if workspace.path.isPrefixOf setting.manifest.path then
      (workspace.path, "$\x7bworkspace\x7d")
    else (setting.manifest.path, "$\x7bpackage\x7d")
  | none => (setting.manifest.path, "$\x7bpackage\x7d")

/-- The configured target directory. -/
def Setting.excluded (setting : Setting) : Option Path := setting.target.map TextPath.path

/-- The record for the inputs of a run. -/
def descriptorWith (setting : Setting) (identity : String) (inputs : Inputs) : ActionDescriptor :=
  let mappings := pathMappings setting
  { adapter := "rustdoc"
    version := 1
    rustdoc := identity
    arguments := setting.arguments.map fun argument => normalize argument mappings
    environment := actionEnvironment setting.vars mappings
    inputs := inputs.toList }

/-- The descriptor of a run. -/
def actionDescriptor (host : Host) (setting : Setting) (tree : Entries) : Except String Bytes :=
  match setting.identity with
  | .error failure => .error failure
  | .ok identity =>
    let (root, portableRoot) := setting.inputRoot
    match collectTree host root portableRoot setting.excluded [] tree ∅ with
    | .error failure => .error failure
    | .ok inputs =>
      match collectArgumentInputs host tree (pathMappings setting)
          (argumentPaths setting.arguments) inputs with
      | .error failure => .error failure
      | .ok inputs => .ok (host.canonicalJson (descriptorWith setting identity inputs))

end MrBoxington.Rustdoc
