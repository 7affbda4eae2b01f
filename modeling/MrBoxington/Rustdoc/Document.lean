import MrBoxington.Lib.Runs
import MrBoxington.Rustdoc.Descriptor

/-!
# A documentation run among edits

A documentation run computes its descriptor, looks the action up, runs the compiler and
publishes what it wrote under the descriptor. Other processes edit the sources at any
moment: between two steps of the walk, while the compiler reads, and afterwards.
-/

namespace MrBoxington.Rustdoc

open Protocol (Bytes Digest)

/-- A host whose input root changes. -/
structure System extends Host where
  resolve : Entries → Path → Option Node
  listed : ∀ tree directory name rest contents,
    resolve tree (directory ++ name :: rest) = some (.file contents) →
      ∃ entries, resolve tree directory = some (.dir entries) ∧ name ∈ entries.names

/-- How the compiler finds an input file. -/
inductive Source where
  | path (path : Path)
  | argument (text : String)

/-- What is left to do for the descriptor. -/
inductive Task where
  | directory (path : Path)
  | entry (directory : Path) (name : FileName) (link : Bool)
  | argument (text : String)
  | malformed (failure : String)

/-- Where a documentation run is. -/
inductive Phase where
  | started
  | describing (identity : String) (pending : List Task) (inputs : Inputs)
  | described (descriptor : ActionDescriptor)
  /-- The action was not found; the compiler runs and has read these files. -/
  | generating (descriptor : ActionDescriptor) (reads : List (Source × Bytes))
  | generated (descriptor : ActionDescriptor) (reads : List (Source × Bytes))
  | published (action : Digest) (descriptor : ActionDescriptor) (reads : List (Source × Bytes))
  | finished

/-- The input root and the run. -/
structure RunState where
  tree : Entries
  phase : Phase

/-- What happens next. -/
inductive Event where
  | edit (tree : Entries)
  | work
  | fail
  | lookUp (hit : Bool)
  | read (source : Source)
  | exit (success : Bool)
  /-- The archive is written and installed, and the result is published. -/
  | publish

section Steps

variable (system : System) (setting : Setting)

/-- The contents of an input file. -/
def System.contents (tree : Entries) : Source → Option Bytes
  | .path path =>
    match system.resolve tree path with
    | some (.file contents) => some contents
    | _ => none
  | .argument text => system.readFile tree text

/-- The key of an input file. -/
def System.key : Source → String
  | .path path => inputKey system.toHost setting.inputRoot.2 path
  | .argument text => normalize (system.absolute text) (pathMappings setting)

/-- A link. -/
def Node.isSymlink : Node → Bool
  | .symlink => true
  | _ => false

/-- The entries of a directory that are not left out. -/
def entryTasks (directory : Path) : Entries → List Task
  | .nil => []
  | .cons name node rest =>
    if (name = targetName ∧ node.isDirOrSymlink) ∨
        isExcluded setting.inputRoot.1 setting.excluded (directory ++ [name]) then
      entryTasks directory rest
    else .entry directory name node.isSymlink :: entryTasks directory rest

/-- Carry out one task: what it leaves to do, and the inputs after it. -/
def runTask (tree : Entries) (inputs : Inputs) : Task → Except String (List Task × Inputs)
  | .directory path =>
    match system.resolve tree path with
    | some (.dir entries) => .ok (entryTasks setting path entries, inputs)
    | _ => .error "not a directory"
  | .entry directory name true =>
    .error ("rustdoc input tree contains a symbolic link: " ++
      relativeText system.toHost (setting.inputRoot.1 ++ directory ++ [name]))
  | .entry directory name false =>
    match system.resolve tree (directory ++ [name]) with
    | some (.dir _) =>
      if name = gitName then .ok ([], inputs) else .ok ([.directory (directory ++ [name])], inputs)
    | some (.file contents) =>
      .ok ([], inputs.insert (system.key setting (.path (directory ++ [name])))
        (blake3File system.toHost contents))
    | _ => .ok ([], inputs)
  | .argument text =>
    match system.readFile tree text with
    | none => .error ("rustdoc input is not a file: " ++ text)
    | some contents =>
      .ok ([], inputs.insert (system.key setting (.argument text))
        (blake3File system.toHost contents))
  | .malformed failure => .error failure

/-- What is to do for the descriptor. -/
def allTasks : List Task :=
  .directory [] :: (argumentPaths setting.arguments).map fun
    | .ok text => .argument text
    | .error failure => .malformed failure

/-- The next phase while the descriptor is computed. -/
def Phase.work (tree : Entries) : Phase → Option Phase
  | .started =>
    match setting.identity with
    | .error _ => some .finished
    | .ok identity => some (.describing identity (allTasks setting) ∅)
  | .describing identity [] inputs => some (.described (descriptorWith setting identity inputs))
  | .describing identity (task :: pending) inputs =>
    match runTask system setting tree inputs task with
    | .error _ => some .finished
    | .ok (tasks, inputs) => some (.describing identity (tasks ++ pending) inputs)
  | _ => none

/-- The state after an event, if it can happen. -/
def RunState.step (s : RunState) : Event → Option RunState
  | .edit tree => some { s with tree := tree }
  | .work => (s.phase.work system setting s.tree).map fun phase => { s with phase := phase }
  | .fail =>
    match s.phase with
    | .published _ _ _ => none
    | _ => some { s with phase := .finished }
  | .lookUp hit =>
    match s.phase with
    | .described descriptor =>
      some { s with phase := if hit then .finished else .generating descriptor [] }
    | _ => none
  | .read source =>
    match s.phase, system.contents s.tree source with
    | .generating descriptor reads, some contents =>
      some { s with phase := .generating descriptor ((source, contents) :: reads) }
    | _, _ => none
  | .exit success =>
    match s.phase with
    | .generating descriptor reads =>
      some { s with phase := if success then .generated descriptor reads else .finished }
    | _ => none
  | .publish =>
    match s.phase with
    | .generated descriptor reads =>
      let action := blake3File system.toHost (system.canonicalJson descriptor)
      some { s with phase := .published action descriptor reads }
    | _ => none

end Steps

/-- The digest that a descriptor records for an input file is that of its contents. -/
def Records (system : System) (setting : Setting) (descriptor : ActionDescriptor)
    (source : Source) (contents : Bytes) : Prop :=
  (system.key setting source, blake3File system.toHost contents) ∈ descriptor.inputs

/-- Whatever is published was made from files with the recorded digests. -/
def RunState.Faithful (system : System) (setting : Setting) (s : RunState) : Prop :=
  ∀ action descriptor reads, s.phase = .published action descriptor reads →
    action = blake3File system.toHost (system.canonicalJson descriptor) ∧
      ∀ source contents, (source, contents) ∈ reads →
        Records system setting descriptor source contents

section Quiet

/-- Every entry has a property. -/
def Entries.Every (holds : FileName → Node → Prop) : Entries → Prop
  | .nil => True
  | .cons name node rest => holds name node ∧ rest.Every holds

/-- Paths lead to the nodes of a tree, except through links. -/
structure System.Follows (system : System) (tree : Entries) : Prop where
  root : system.resolve tree [] = some (.dir tree)
  /-- A path to a directory, with a name added, leads to the entry with this name. -/
  entry : ∀ directory entries, system.resolve tree directory = some (.dir entries) →
    entries.Every fun name node =>
      node.isSymlink = false → system.resolve tree (directory ++ [name]) = some node

variable {system : System} {setting : Setting} {tree : Entries} {identity : String}

/-- Work on the descriptor while nothing is edited. -/
abbrev Works (system : System) (setting : Setting) (tree : Entries) : Phase → Phase → Prop :=
  Relation.ReflTransGen fun phase phase' => phase.work system setting tree = some phase'

mutual

private theorem collectNode_works (hfollows : system.Follows tree) (directory : Path)
    (name : FileName) (pending : List Task) {inputs result : Inputs} : (node : Node) →
    (node.isSymlink = false → system.resolve tree (directory ++ [name]) = some node) →
    collectNode system.toHost setting.inputRoot.1 setting.inputRoot.2 setting.excluded
      (directory ++ [name]) name node inputs = .ok result →
    Works system setting tree
      (.describing identity (.entry directory name node.isSymlink :: pending) inputs)
      (.describing identity pending result)
  | .symlink, _, hcollect => by cases hcollect
  | .other, hnode, hcollect => by
    cases hcollect
    refine .single ?_
    simp [Phase.work, runTask, Node.isSymlink, hnode rfl]
  | .file contents, hnode, hcollect => by
    cases hcollect
    refine .single ?_
    simp [Phase.work, runTask, Node.isSymlink, hnode rfl, System.key]
  | .dir entries, hnode, hcollect => by
    rw [collectNode] at hcollect
    split at hcollect
    · rename_i hgit
      cases hcollect
      subst hgit
      refine .single ?_
      simp [Phase.work, runTask, Node.isSymlink, hnode rfl]
    · rename_i hgit
      refine .head (b := .describing identity (.directory (directory ++ [name]) :: pending) inputs)
        ?_ (.head (b := .describing identity
          (entryTasks setting (directory ++ [name]) entries ++ pending) inputs) ?_ ?_)
      · simp [Phase.work, runTask, Node.isSymlink, hnode rfl, hgit]
      · simp [Phase.work, runTask, hnode rfl]
      · exact collectTree_works hfollows _ pending entries
          (hfollows.entry _ entries (hnode rfl)) hcollect

private theorem collectTree_works (hfollows : system.Follows tree) (directory : Path)
    (pending : List Task) {inputs result : Inputs} : (entries : Entries) →
    (entries.Every fun name node =>
      node.isSymlink = false → system.resolve tree (directory ++ [name]) = some node) →
    collectTree system.toHost setting.inputRoot.1 setting.inputRoot.2 setting.excluded
      directory entries inputs = .ok result →
    Works system setting tree
      (.describing identity (entryTasks setting directory entries ++ pending) inputs)
      (.describing identity pending result)
  | .nil, _, hcollect => by
    cases hcollect
    exact .refl
  | .cons name node rest, hentries, hcollect => by
    rw [collectTree] at hcollect
    rw [entryTasks]
    split at hcollect
    · rename_i hskip
      rw [if_pos hskip]
      exact collectTree_works hfollows directory pending rest hentries.2 hcollect
    · rename_i hskip
      rw [if_neg hskip]
      split at hcollect
      · cases hcollect
      · rename_i middle hnode
        exact (collectNode_works hfollows directory name _ node hentries.1 hnode).trans
          (collectTree_works hfollows directory pending rest hentries.2 hcollect)

end

private theorem collectArgumentInputs_works {inputs result : Inputs}
    {paths : List (Except String String)}
    (hcollect : collectArgumentInputs system.toHost tree (pathMappings setting) paths inputs =
      .ok result) :
    Works system setting tree
      (.describing identity (paths.map fun
        | .ok text => .argument text
        | .error failure => .malformed failure) inputs)
      (.describing identity [] result) := by
  induction paths generalizing inputs with
  | nil =>
    cases hcollect
    exact .refl
  | cons path rest ih =>
    cases path with
    | error failure => cases hcollect
    | ok path =>
      unfold collectArgumentInputs at hcollect
      split at hcollect
      · cases hcollect
      · rename_i contents hread
        refine .head ?_ (ih hcollect)
        simp [Phase.work, runTask, hread, System.key]

/-- A descriptor is what reads of an unchanged tree, made one after the other, come to. -/
theorem works_of_actionDescriptor (hfollows : system.Follows tree) {bytes : Bytes}
    (hbytes : actionDescriptor system.toHost setting tree = .ok bytes) :
    ∃ descriptor, system.canonicalJson descriptor = bytes ∧
      Works system setting tree .started (.described descriptor) := by
  unfold actionDescriptor at hbytes
  split at hbytes
  · cases hbytes
  · rename_i identity hidentity
    dsimp only at hbytes
    split at hbytes
    · cases hbytes
    · rename_i walked hwalk
      split at hbytes
      · cases hbytes
      · rename_i inputs harguments
        refine ⟨_, Except.ok.inj hbytes, ?_⟩
        have hstart : Phase.started.work system setting tree =
            some (.describing identity (allTasks setting) ∅) := by
          simp [Phase.work, hidentity]
        have hroot : Works system setting tree (.describing identity (allTasks setting) ∅)
            (.describing identity (entryTasks setting [] tree ++ (allTasks setting).tail) ∅) := by
          refine .single ?_
          simp [Phase.work, allTasks, runTask, hfollows.root]
        calc Works system setting tree .started (.describing identity (allTasks setting) ∅) :=
              .single hstart
          Works system setting tree _ _ := hroot
          Works system setting tree _ (.describing identity (allTasks setting).tail walked) :=
              collectTree_works hfollows [] _ tree (hfollows.entry [] tree hfollows.root) hwalk
          Works system setting tree _ (.describing identity [] inputs) :=
              collectArgumentInputs_works harguments
          Works system setting tree _ _ := .single rfl

end Quiet

end MrBoxington.Rustdoc
