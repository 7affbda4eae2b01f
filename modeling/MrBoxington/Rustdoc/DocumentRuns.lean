import MrBoxington.Rustdoc.Determined
import MrBoxington.Rustdoc.Document

/-!
# Published documentation and its descriptor

The inputs are hashed before the compiler runs and are not looked at again. So the
documentation belongs to its descriptor as long as no edit touches a file that the walk
has passed before the compiler has read it, and the compiler reads no file that the
descriptor cannot show.
-/

namespace MrBoxington.Rustdoc

open Protocol (Bytes Digest asciiBytes)

section Conditions

variable (system : System) (setting : Setting)

/-- The descriptor can show a file at this place: the walk or an argument leads there, and
whatever has the same key is the same file. -/
structure Shown (source : Source) : Prop where
  led : match source with
    | .path path => targetName ∉ path ∧ gitName ∉ path.dropLast ∧
        isExcluded setting.inputRoot.1 setting.excluded path = false
    | .argument text => .ok text ∈ argumentPaths setting.arguments
  alone : ∀ other tree contents, system.key setting other = system.key setting source →
    system.contents tree other = some contents → system.contents tree source = some contents

/-- A task will lead to a file. -/
def Task.Covers : Task → Source → Prop
  | .directory parent, .path path => parent <+: path
  | .entry parent name _, .path path => parent ++ [name] <+: path
  | .argument text, .argument other => text = other
  | _, _ => False

/-- The walk has passed a file, and the compiler may still read it. -/
def Phase.Passed (source : Source) : Phase → Prop
  | .describing _ pending _ => ∀ task ∈ pending, ¬task.Covers source
  | .described _ => True
  | .generating _ _ => True
  | _ => False

/-- The next event does not separate the documentation from its descriptor: an edit
changes no file that the walk has passed, and the compiler reads a file that the
descriptor can show. -/
def Undisturbed (s : RunState) : Event → Prop
  | .edit tree => ∀ source, Shown system setting source → s.phase.Passed source →
      system.contents tree source = system.contents s.tree source
  | .read source => Shown system setting source
  | _ => True

/-- A step in which the documentation stays with its descriptor. -/
def UndisturbedStep (s t : RunState) : Prop :=
  ∃ event, Undisturbed system setting s event ∧ s.step system setting event = some t

/-- Before the run. -/
def RunState.Initial (s : RunState) : Prop := s.phase = .started

/-- Every file that the walk has passed is recorded as it is now. -/
def PhaseInv (tree : Entries) : Phase → Prop
  | .describing _ pending inputs => ∀ source contents, Shown system setting source →
      (∀ task ∈ pending, ¬task.Covers source) → system.contents tree source = some contents →
      inputs[system.key setting source]? = some (blake3File system.toHost contents)
  | .described descriptor => ∀ source contents, Shown system setting source →
      system.contents tree source = some contents →
      Records system setting descriptor source contents
  | .generating descriptor reads =>
      (∀ source contents, Shown system setting source →
        system.contents tree source = some contents →
        Records system setting descriptor source contents) ∧
      ∀ source contents, (source, contents) ∈ reads →
        Records system setting descriptor source contents
  | .generated descriptor reads => ∀ source contents, (source, contents) ∈ reads →
      Records system setting descriptor source contents
  | .published action descriptor reads =>
      action = blake3File system.toHost (system.canonicalJson descriptor) ∧
      ∀ source contents, (source, contents) ∈ reads →
        Records system setting descriptor source contents
  | _ => True

/-- What holds in every state. -/
def RunState.Inv (s : RunState) : Prop := PhaseInv system setting s.tree s.phase

end Conditions

variable {system : System} {setting : Setting} {tree : Entries} {inputs : Inputs}
  {source : Source} {contents : Bytes}

private theorem contents_path {path : Path} :
    system.contents tree (.path path) = some contents ↔
      system.resolve tree path = some (.file contents) := by
  unfold System.contents
  dsimp only
  split
  · rename_i found hresolve
    rw [hresolve, Option.some.injEq, Option.some.injEq, Node.file.injEq]
  · rename_i hresolve
    refine iff_of_false (by simp) fun hfile => hresolve contents hfile

private theorem getElem?_insert_shown {other : Source} {found : Bytes}
    (hshown : Shown system setting source) (hcontents : system.contents tree source = some contents)
    (hother : system.contents tree other = some found)
    (hrecorded : system.key setting other = system.key setting source ∨
      inputs[system.key setting source]? = some (blake3File system.toHost contents)) :
    (inputs.insert (system.key setting other) (blake3File system.toHost found))[
      system.key setting source]? = some (blake3File system.toHost contents) := by
  rw [Std.TreeMap.getElem?_insert]
  split
  · rename_i hkey
    have hsame := hshown.alone other tree found (Std.compare_eq_iff_eq.1 hkey) hother
    rw [Option.some.inj (hsame.symm.trans hcontents)]
  · rename_i hkey
    exact hrecorded.resolve_left fun heq => hkey (Std.compare_eq_iff_eq.2 heq)

private theorem exists_entryTasks {directory rest : Path} {name : FileName} {entries : Entries}
    (hshown : Shown system setting (.path (directory ++ name :: rest)))
    (hname : name ∈ entries.names) :
    ∃ link, .entry directory name link ∈ entryTasks setting directory entries := by
  obtain ⟨htarget, -, hexcluded⟩ := hshown.led
  have hne : name ≠ targetName := fun heq => htarget (by simp [heq])
  rw [← List.singleton_append, ← List.append_assoc] at hexcluded
  have hopen := isExcluded_append hexcluded
  induction entries using Entries.names.induct with
  | case1 => cases hname
  | case2 first node others ih =>
    unfold entryTasks
    rcases List.mem_cons.1 hname with rfl | hothers
    · rw [if_neg (by simp [hne, hopen])]
      exact ⟨_, List.mem_cons_self⟩
    · obtain ⟨link, hmem⟩ := ih hothers
      refine ⟨link, ?_⟩
      split
      · exact hmem
      · exact List.mem_cons_of_mem _ hmem

private theorem Task.covers_directory {parent : Path} :
    (Task.directory parent).Covers source ↔ ∃ rest, source = .path (parent ++ rest) := by
  cases source with
  | path path => simp [Covers, List.prefix_iff_exists_append_eq, eq_comm]
  | argument text => simp [Covers]

private theorem Task.covers_entry {parent : Path} {name : FileName} {link : Bool} :
    (Task.entry parent name link).Covers source ↔
      ∃ rest, source = .path (parent ++ [name] ++ rest) := by
  cases source with
  | path path => simp [Covers, List.prefix_iff_exists_append_eq, eq_comm]
  | argument text => simp [Covers]

private theorem resolve_of_below {path rest : Path}
    (hfile : system.resolve tree (path ++ rest) = some (.file contents)) :
    rest = [] ∨ ∃ entries, system.resolve tree path = some (.dir entries) := by
  cases rest with
  | nil => exact .inl rfl
  | cons first rest =>
    obtain ⟨entries, hentries, -⟩ := system.listed tree path first rest contents hfile
    exact .inr ⟨entries, hentries⟩

private theorem runTask_directory {parent : Path} {entries : Entries}
    (hentries : system.resolve tree parent = some (.dir entries))
    (hshown : Shown system setting source) (hcontents : system.contents tree source = some contents)
    (hcovers : (Task.directory parent).Covers source) :
    ∃ task ∈ entryTasks setting parent entries, task.Covers source := by
  obtain ⟨rest, rfl⟩ := Task.covers_directory.1 hcovers
  rw [contents_path] at hcontents
  cases rest with
  | nil =>
    rw [List.append_nil, hentries] at hcontents
    cases hcontents
  | cons name rest =>
    obtain ⟨listing, hlisting, hname⟩ := system.listed tree parent name rest contents hcontents
    obtain rfl : entries = listing := by simpa [hentries] using hlisting
    obtain ⟨link, hmem⟩ := exists_entryTasks hshown hname
    exact ⟨_, hmem, Task.covers_entry.2 ⟨rest, by simp⟩⟩

private theorem not_covers_git {parent : Path} {link : Bool} {entries : Entries}
    (hentries : system.resolve tree (parent ++ [gitName]) = some (.dir entries))
    (hshown : Shown system setting source)
    (hcontents : system.contents tree source = some contents) :
    ¬(Task.entry parent gitName link).Covers source := by
  intro hcovers
  obtain ⟨rest, rfl⟩ := Task.covers_entry.1 hcovers
  rw [contents_path] at hcontents
  cases rest with
  | nil =>
    rw [List.append_nil, hentries] at hcontents
    cases hcontents
  | cons first rest => exact hshown.led.2.1 (by simp)

private theorem runTask_records {task : Task} {tasks : List Task} {inputs' : Inputs}
    (hrun : runTask system setting tree inputs task = .ok (tasks, inputs'))
    (hshown : Shown system setting source) (hcontents : system.contents tree source = some contents)
    (hpassed : ∀ task ∈ tasks, ¬task.Covers source)
    (hrecorded : ¬task.Covers source →
      inputs[system.key setting source]? = some (blake3File system.toHost contents)) :
    inputs'[system.key setting source]? = some (blake3File system.toHost contents) := by
  cases task with
  | directory parent =>
    rw [runTask] at hrun
    split at hrun
    · rename_i entries hentries
      cases hrun
      refine hrecorded fun hcovers => ?_
      obtain ⟨task, hmem, htask⟩ := runTask_directory hentries hshown hcontents hcovers
      exact hpassed task hmem htask
    · cases hrun
  | entry parent name link =>
    cases link with
    | true => cases hrun
    | false =>
      rw [runTask] at hrun
      split at hrun
      · rename_i entries hentries
        split at hrun
        · rename_i hgit
          cases hrun
          subst hgit
          exact hrecorded (not_covers_git hentries hshown hcontents)
        · cases hrun
          refine hrecorded fun hcovers => hpassed _ (List.mem_singleton.2 rfl) ?_
          exact Task.covers_directory.2 (Task.covers_entry.1 hcovers)
      · rename_i found hfound
        cases hrun
        refine getElem?_insert_shown hshown hcontents (contents_path.2 hfound) ?_
        by_cases hcovers : (Task.entry parent name false).Covers source
        · obtain ⟨rest, rfl⟩ := Task.covers_entry.1 hcovers
          rcases resolve_of_below (contents_path.1 hcontents) with rfl | ⟨entries, hdir⟩
          · rw [List.append_nil]
            exact .inl rfl
          · cases hfound.symm.trans hdir
        · exact .inr (hrecorded hcovers)
      · rename_i hnotDir hnotFile
        cases hrun
        refine hrecorded fun hcovers => ?_
        obtain ⟨rest, rfl⟩ := Task.covers_entry.1 hcovers
        have hfile := contents_path.1 hcontents
        rcases resolve_of_below hfile with rfl | ⟨entries, hdir⟩
        · rw [List.append_nil] at hfile
          exact hnotFile _ hfile
        · exact hnotDir _ hdir
  | argument text =>
    rw [runTask] at hrun
    split at hrun
    · cases hrun
    · rename_i found hfound
      cases hrun
      have hown : system.contents tree (.argument text) = some found := hfound
      refine getElem?_insert_shown hshown hcontents hown ?_
      by_cases hcovers : (Task.argument text).Covers source
      · cases source with
        | argument other => exact .inl (congrArg (system.key setting ∘ .argument) hcovers)
        | path path => exact hcovers.elim
      · exact .inr (hrecorded hcovers)
  | malformed failure => cases hrun

private theorem exists_allTasks (hshown : Shown system setting source) :
    ∃ task ∈ allTasks setting, task.Covers source := by
  cases source with
  | path path => exact ⟨_, List.mem_cons_self, List.nil_prefix⟩
  | argument text =>
    exact ⟨.argument text, List.mem_cons_of_mem _ (List.mem_map.2 ⟨_, hshown.led, rfl⟩), rfl⟩

private theorem PhaseInv.work {phase phase' : Phase} (hinv : PhaseInv system setting tree phase)
    (hwork : phase.work system setting tree = some phase') :
    PhaseInv system setting tree phase' := by
  unfold Phase.work at hwork
  split at hwork
  · split at hwork
    · cases hwork
      trivial
    · cases hwork
      intro source contents hshown hpassed
      obtain ⟨task, hmem, hcovers⟩ := exists_allTasks hshown
      exact absurd hcovers (hpassed task hmem)
  · cases hwork
    intro source contents hshown hcontents
    have hrecorded := hinv source contents hshown (by simp) hcontents
    exact Std.TreeMap.mem_toList_iff_getElem?_eq_some.2 hrecorded
  · split at hwork
    · cases hwork
      trivial
    · rename_i tasks inputs' hrun
      cases hwork
      intro source contents hshown hpassed hcontents
      refine runTask_records hrun hshown hcontents
        (fun task hmem => hpassed task (List.mem_append_left _ hmem)) fun htask => ?_
      refine hinv source contents hshown (fun other hmem => ?_) hcontents
      rcases List.mem_cons.1 hmem with rfl | hrest
      · exact htask
      · exact hpassed other (List.mem_append_right _ hrest)
  · cases hwork

private theorem PhaseInv.edit {phase : Phase} {tree' : Entries}
    (hinv : PhaseInv system setting tree phase)
    (hedit : ∀ source, Shown system setting source → phase.Passed source →
      system.contents tree' source = system.contents tree source) :
    PhaseInv system setting tree' phase := by
  cases phase with
  | started => trivial
  | describing identity pending inputs =>
    intro source contents hshown hpassed hcontents
    rw [hedit source hshown hpassed] at hcontents
    exact hinv source contents hshown hpassed hcontents
  | described descriptor =>
    intro source contents hshown hcontents
    rw [hedit source hshown trivial] at hcontents
    exact hinv source contents hshown hcontents
  | generating descriptor reads =>
    refine ⟨fun source contents hshown hcontents => ?_, hinv.2⟩
    rw [hedit source hshown trivial] at hcontents
    exact hinv.1 source contents hshown hcontents
  | generated descriptor reads => exact hinv
  | published action descriptor reads => exact hinv
  | finished => trivial

private theorem RunState.Inv.step {s t : RunState} (hinv : s.Inv system setting)
    (hstep : UndisturbedStep system setting s t) : t.Inv system setting := by
  obtain ⟨event, hundisturbed, hstep⟩ := hstep
  obtain ⟨tree, phase⟩ := s
  cases event with
  | edit tree' =>
    cases hstep
    exact PhaseInv.edit hinv hundisturbed
  | work =>
    obtain ⟨phase', hwork, rfl⟩ := Option.map_eq_some_iff.1 hstep
    exact PhaseInv.work hinv hwork
  | fail =>
    cases phase <;> cases hstep <;> trivial
  | lookUp hit =>
    cases phase with
    | described descriptor =>
      cases hstep
      cases hit with
      | true => trivial
      | false => exact ⟨hinv, by simp⟩
    | _ => cases hstep
  | read source =>
    unfold RunState.step at hstep
    dsimp only at hstep
    split at hstep
    · rename_i contents hcontents
      cases hstep
      refine ⟨hinv.1, fun other found hmem => ?_⟩
      rcases List.mem_cons.1 hmem with heq | hmem
      · cases heq
        exact hinv.1 source contents hundisturbed hcontents
      · exact hinv.2 other found hmem
    · cases hstep
  | exit success =>
    cases phase with
    | generating descriptor reads =>
      cases hstep
      cases success with
      | true => exact hinv.2
      | false => trivial
    | _ => cases hstep
  | publish =>
    cases phase with
    | generated descriptor reads =>
      cases hstep
      exact ⟨rfl, hinv⟩
    | _ => cases hstep

section Runs

/-- The node with a name. -/
def Entries.lookup (name : FileName) : Entries → Option Node
  | .nil => none
  | .cons first node rest => if first = name then some node else rest.lookup name

/-- What a path leads to in a tree without links. -/
def Entries.locate : Entries → Path → Option Node
  | tree, [] => some (.dir tree)
  | tree, name :: rest =>
    if 47 ∈ name then none
    else
      match tree.lookup name with
      | some (.dir entries) => entries.locate rest
      | some node => if rest = [] then some node else none
      | none => none

end Runs

end MrBoxington.Rustdoc
