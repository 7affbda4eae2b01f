import Mathlib.Data.List.Dedup
import MrBoxington.Lib.Fallible
import MrBoxington.Rustc.Discover
import MrBoxington.Rustc.Linkers

/-!
# The files that are digested

A path is normalized as it is written before its file is digested, while the system follows
links on its way. The two differ for a step up after a link. This file says for which paths
the file that is digested is the one that the compiler opened.
-/

namespace MrBoxington.Rustc

open BuildScript (components pieces)
open Paths (Path Rooted isAbsolute join normalizeComponents)
open PosixTree (Location Reaches Step realpath)
open Strings (OsString)

variable {disk : Disk} {digests : Digests} {invocation : RustcInvocation} {path workingDir : Path}
  {environment : List (String × Option String)} {mappings : Option (List PathMapping)}
  {discovered : DiscoveredInputs}

/-! ## Paths that are read -/

private theorem components_cases (text : String) :
    ∃ steps, (∀ step ∈ steps, step = .up ∨ ∃ name, step = .down name) ∧
      (components text = .top :: steps ∨ components text = .stay :: steps ∨
        components text = steps) := by
  refine ⟨((pieces text).filter fun piece => piece ≠ [] ∧ piece ≠ ['.']).map fun piece =>
    if piece = ['.', '.'] then .up else .down (String.ofList piece), ?_, ?_⟩
  · intro step hstep
    obtain ⟨piece, -, rfl⟩ := List.mem_map.mp hstep
    split
    · exact .inl rfl
    · exact .inr ⟨_, rfl⟩
  · unfold components
    split
    · exact .inl rfl
    · split
      · exact .inr (.inl rfl)
      · exact .inr (.inr rfl)

theorem rooted_components {text : String} (habsolute : isAbsolute (components text) = true) :
    Rooted (components text) := by
  obtain ⟨rest, hrest⟩ := Paths.isAbsolute_iff.mp habsolute
  obtain ⟨steps, hsteps, heq | heq | heq⟩ := components_cases text
  · exact ⟨steps, heq, hsteps⟩
  · rw [hrest] at heq
    cases heq
  · rw [hrest] at heq
    rcases hsteps .top (by rw [← heq]; exact List.mem_cons_self) with htop | ⟨name, htop⟩ <;>
      cases htop

theorem rooted_join {file : String} (hrooted : Rooted workingDir) :
    Rooted (join workingDir (components file)) := by
  unfold join
  split
  · rename_i hcase
    refine rooted_components (hcase.resolve_right ?_)
    rintro rfl
    obtain ⟨steps, heq, -⟩ := hrooted
    cases heq
  · rename_i hcase
    obtain ⟨steps, rfl, hsteps⟩ := hrooted
    refine ⟨_, rfl, fun step hstep => ?_⟩
    rcases List.mem_append.mp hstep with hstep | hstep
    · exact hsteps step hstep
    · obtain ⟨hstep, hstay⟩ := List.mem_filter.mp hstep
      obtain ⟨rest, hrest, heq | heq | heq⟩ := components_cases file
      · exact absurd (Or.inl (Paths.isAbsolute_iff.mpr ⟨rest, heq⟩)) hcase
      · rw [heq] at hstep
        rcases List.mem_cons.mp hstep with rfl | hstep
        · simp at hstay
        · exact hrest step hstep
      · exact hrest step (heq ▸ hstep)

private theorem absolute_normalized (hrooted : Rooted workingDir) :
    absolute (normalizeComponents workingDir) path =
      normalizeComponents (join workingDir path) := by
  obtain ⟨steps, rfl, -⟩ := hrooted
  unfold absolute join
  by_cases habsolute : isAbsolute path = true
  · rw [if_pos (.inl habsolute), if_pos (.inl habsolute)]
  · have hnil : normalizeComponents (.top :: steps) ≠ [] := by
      rw [Paths.normalizeComponents_top]
      exact List.cons_ne_nil _ _
    rw [if_neg (by simp [habsolute, hnil]), if_neg (by simp [habsolute])]
    exact Paths.normalizeComponents_append rfl

/-! ## Where a path leads -/

/-- What comes after the last step up of a path leads to the same place from the directory that
the system is in by then as from the one that is left if every step up takes the name before
it away. -/
def AgreesAfterUp (disk : Disk) (path : Path) : Prop :=
  ∀ front back, path = front ++ .up :: back → .up ∉ back →
    (realpath disk.tree [] (front ++ [.up])).bind (realpath disk.tree · back) =
      (realpath disk.tree [] (.top :: (PosixTree.lexical [] (front ++ [.up])).map .down)).bind
        (realpath disk.tree · back)

/-- At the last step up, the normalized path leads where the path leads if what comes after it
does. -/
private theorem canonicalize_split {front back : Path} (hrooted : Rooted (front ++ .up :: back))
    (hup : .up ∉ back) :
    disk.canonicalize (normalizeComponents (front ++ .up :: back)) =
        disk.canonicalize (front ++ .up :: back) ↔
      (realpath disk.tree [] (front ++ [.up])).bind (realpath disk.tree · back) =
        (realpath disk.tree [] (.top :: (PosixTree.lexical [] (front ++ [.up])).map .down)).bind
          (realpath disk.tree · back) := by
  obtain ⟨names, rfl⟩ := hrooted.names_after hup
  obtain ⟨front, rfl⟩ : ∃ rest, front = .top :: rest := by
    obtain ⟨steps, heq, -⟩ := hrooted
    cases front with
    | nil => cases heq
    | cons first rest => exact ⟨rest, by rw [(List.cons.inj heq).1]⟩
  have hsplit : .top :: front ++ .up :: names.map .down =
      .top :: front ++ [.up] ++ names.map .down := by simp
  have hnormal : normalizeComponents (.top :: front ++ [.up]) =
      .top :: (PosixTree.lexical [] (.top :: front ++ [.up])).map .down :=
    Paths.normalizeComponents_top
  rw [hsplit, Paths.normalizeComponents_append_names, hnormal, disk.canonicalize_eq,
    disk.canonicalize_eq, PosixTree.realpath_append, PosixTree.realpath_append]
  exact eq_comm

/-- The normalised path finds the same file exactly where steps up agree. -/
theorem canonicalize_normalized_iff (hrooted : Rooted path) :
    disk.canonicalize (normalizeComponents path) = disk.canonicalize path ↔
      AgreesAfterUp disk path := by
  by_cases hup : .up ∈ path
  · obtain ⟨front, back, rfl, hback⟩ := Paths.exists_last hup
    constructor
    · intro hsame front' back' heq hback'
      rw [heq] at hrooted hsame
      exact (canonicalize_split hrooted hback').mp hsame
    · intro hagrees
      exact (canonicalize_split hrooted hback).mpr (hagrees front back rfl hback)
  · obtain ⟨names, rfl⟩ := hrooted.eq_names hup
    refine iff_of_true (congrArg disk.canonicalize ?_) fun front back heq => ?_
    · exact @Paths.normalizeComponents_append_names [.top] names
    · exact absurd (heq ▸ by simp) hup

/-- Each step up takes away a name that is no link: with what is left of the path before it, it
names a directory in a directory. -/
def TakesDirectories (disk : Disk) (path : Path) : Prop :=
  ∀ front back names name location, path = front ++ .up :: back →
    PosixTree.lexical [] front = names ++ [name] →
    realpath disk.tree [] (.top :: names.map .down) = some location →
    disk.tree location = some .dir ∧ disk.tree (location ++ [name]) = some .dir

/-- A step up from a directory, or from the root, undoes the step before it. -/
private theorem realpath_up {names : Location}
    (hlast : ∀ front name location, names = front ++ [name] →
      realpath disk.tree [] (.top :: front.map .down) = some location →
      disk.tree location = some .dir ∧ disk.tree (location ++ [name]) = some .dir) :
    (realpath disk.tree [] (.top :: names.map .down)).bind (realpath disk.tree · [.up]) =
      realpath disk.tree [] (.top :: names.dropLast.map .down) := by
  obtain rfl | ⟨front, name, rfl⟩ := List.eq_nil_or_concat' names
  · have hroot : Reaches disk.tree 0 [] [.top] [] := .top disk.root .done
    have hup : Reaches disk.tree 0 [] [.up] [] := .up disk.root .done
    exact (congrArg (Option.bind · _) hroot.realpath).trans (hup.realpath.trans hroot.realpath.symm)
  · rw [List.map_append, ← List.cons_append, PosixTree.realpath_append, List.dropLast_concat]
    cases hfront : realpath disk.tree [] (.top :: front.map .down) with
    | none => rfl
    | some location =>
      obtain ⟨hdir, hname⟩ := hlast front name location rfl hfront
      have hdown : Reaches disk.tree 0 location [.down name] (location ++ [name]) :=
        .intoDir hdir hname .done
      have hup : Reaches disk.tree 0 (location ++ [name]) [.up] (location ++ [name]).dropLast :=
        .up hname .done
      rw [List.dropLast_concat] at hup
      rw [Option.bind_some, List.map_singleton, hdown.realpath, Option.bind_some, hup.realpath]

/-- With no link before a step up the system stays where the names that are left lead to. -/
private theorem realpath_lexical {steps : Path}
    (hsteps : ∀ step ∈ steps, step = .up ∨ ∃ name, step = .down name)
    (htakes : TakesDirectories disk (.top :: steps)) :
    realpath disk.tree [] (.top :: steps) =
      realpath disk.tree [] (.top :: (PosixTree.lexical [] steps).map .down) := by
  -- Along the path: what lies before a step up was followed alike.
  induction steps using List.reverseRecOn with
  | nil => rfl
  | append_singleton steps step ih =>
    have hbefore := ih (fun other hother => hsteps other (List.mem_append_left _ hother))
      fun front back names name location heq =>
        htakes front (back ++ [step]) names name location (by
          rw [← List.cons_append, heq, List.append_assoc, List.cons_append])
    rw [← List.cons_append, PosixTree.realpath_append, hbefore]
    rcases hsteps step (by simp) with rfl | ⟨name, rfl⟩
    · have hlexical : PosixTree.lexical [] (steps ++ [.up]) =
          (PosixTree.lexical [] steps).dropLast := by simp [PosixTree.lexical, PosixTree.advance]
      rw [hlexical]
      refine realpath_up fun front name location hnames => ?_
      exact htakes (.top :: steps) [] front name location rfl hnames
    · have hlexical : PosixTree.lexical [] (steps ++ [.down name]) =
          PosixTree.lexical [] steps ++ [name] := by simp [PosixTree.lexical, PosixTree.advance]
      rw [hlexical, List.map_append, ← List.cons_append, PosixTree.realpath_append]
      rfl

/-- A path in which no step up takes a link away leads where the normalized path leads. -/
theorem agreesAfterUp_of_takesDirectories (hrooted : Rooted path)
    (htakes : TakesDirectories disk path) : AgreesAfterUp disk path := by
  rw [← canonicalize_normalized_iff hrooted]
  obtain ⟨steps, rfl, hsteps⟩ := hrooted
  rw [disk.canonicalize_eq, disk.canonicalize_eq, Paths.normalizeComponents_top]
  exact (realpath_lexical hsteps htakes).symm

/-! ## What discovery digests -/

/-- Nothing that was collected is lost. -/
def Collected.Within (before after : Collected) : Prop := ∀ path ∈ before.paths, path ∈ after.paths

private theorem Collected.Within.trans {first second third : Collected}
    (hfirst : first.Within second)
    (hsecond : second.Within third) : first.Within third :=
  fun path hpath => hsecond path (hfirst path hpath)

private theorem within_add {collected after : Collected} {len : ℕ}
    (hadd : collected.add path len = .ok after) : collected.Within after := by
  intro known hknown
  unfold Collected.add at hadd
  split at hadd
  · cases hadd
    exact List.mem_insert_of_mem hknown
  · split at hadd
    · cases hadd
    · cases hadd
      exact List.mem_insert_of_mem hknown

private theorem eq_of_check {collected after : Collected} (hcheck : collected.check = .ok after) :
    after = collected := by
  unfold Collected.check at hcheck
  split at hcheck <;> cases hcheck
  rfl

private theorem within_visitEntry {canonicalRoot location : Location} {directory : Path}
    {name : String}
    {before after : List (Path × Location) × Collected}
    (hvisit : visitEntry disk canonicalRoot directory location before name = .ok after) :
    before.2.Within after.2 := by
  unfold visitEntry at hvisit
  by_cases hdir : disk.tree (location ++ [name]) = some .dir
  · rw [if_pos hdir] at hvisit
    cases hvisit
    exact fun _ h => h
  · rw [if_neg hdir] at hvisit
    obtain ⟨len, -, hvisit⟩ := Fallible.bind_ok hvisit
    obtain ⟨collected, hadd, hvisit⟩ := Fallible.bind_ok hvisit
    cases hvisit
    exact within_add hadd

private theorem within_visit {canonicalRoot location : Location} {directory : Path} {name : String}
    {before after : List (Path × Location) × Collected}
    (hvisit : visit disk canonicalRoot directory location before name = .ok after) :
    before.2.Within after.2 := by
  unfold visit at hvisit
  split at hvisit
  · cases hvisit
    exact fun _ h => h
  · obtain ⟨state, hentry, hvisit⟩ := Fallible.bind_ok hvisit
    obtain ⟨collected, hcheck, hvisit⟩ := Fallible.bind_ok hvisit
    cases hvisit
    obtain rfl := eq_of_check hcheck
    exact within_visitEntry hentry

private theorem within_collectBelow {canonicalRoot location : Location} {depth : ℕ}
    {directory : Path}
    {before after : Collected}
    (hbelow : collectBelow disk canonicalRoot depth directory location before = .ok after) :
    before.Within after := by
  induction depth generalizing directory location before after with
  | zero => cases hbelow
  | succ depth ih =>
    unfold collectBelow at hbelow
    obtain ⟨⟨pending, listed⟩, hlisted, hpending⟩ := Fallible.bind_ok hbelow
    have hfirst : before.Within listed :=
      Fallible.foldlM_invariant (fun _ state => before.Within state.2)
        (fun _ _ _ _ hinv hstep => hinv.trans (within_visit hstep)) (fun _ h => h) hlisted
    exact Fallible.foldlM_invariant (fun _ state => before.Within state)
      (fun _ _ _ _ hinv hstep => hinv.trans (ih hstep)) hfirst hpending

private theorem within_collectNativeDirectory {roots : List Path} {directory : Path}
    {before after : Collected}
    (hcollect : collectNativeDirectory disk roots before directory = .ok after) :
    before.Within after := by
  unfold collectNativeDirectory at hcollect
  split at hcollect
  · split at hcollect
    · split at hcollect
      · cases hcollect
        exact fun _ h => h
      · cases hcollect
    · split at hcollect
      · exact within_collectBelow hcollect
      · cases hcollect
  · cases hcollect

private theorem within_collectNative {before after : Collected}
    (hcollect : invocation.collectNative disk workingDir mappings before = .ok after) :
    before.Within after := by
  unfold RustcInvocation.collectNative at hcollect
  split at hcollect
  · cases hcollect
    exact fun _ h => h
  · exact Fallible.foldlM_invariant (fun _ state => before.Within state)
      (fun _ _ _ _ hinv hstep => hinv.trans (within_collectNativeDirectory hstep))
      (fun _ h => h) hcollect

private theorem discover_inputs {depInfo : RustcDepInfo}
    (hdiscover : invocation.discover disk digests depInfo workingDir mappings = .ok discovered) :
    isAbsolute workingDir = true ∧ ∀ file ∈ depInfo.files,
      ∃ input ∈ discovered.inputs, input.path = absolute (normalizeComponents workingDir) file := by
  unfold RustcInvocation.discover at hdiscover
  split at hdiscover
  · rename_i habsolute
    refine ⟨habsolute, fun file hfile => ?_⟩
    obtain ⟨collected, hcollected, hdiscover⟩ := Fallible.bind_ok hdiscover
    have hmem : absolute (normalizeComponents workingDir) file ∈ collected.paths := by
      refine within_collectNative hcollected _ (List.mem_dedup.mpr ?_)
      exact List.mem_append_left _ (List.mem_map_of_mem hfile)
    unfold fromPaths at hdiscover
    split at hdiscover
    · obtain ⟨inputs, hinputs, hdiscover⟩ := Fallible.bind_ok hdiscover
      cases hdiscover
      obtain ⟨input, hinput, hread⟩ := Fallible.ok_of_mapM hinputs hmem
      obtain ⟨bytes, -, hread⟩ := Fallible.bind_ok hread
      cases hread
      exact ⟨_, hinput, rfl⟩
    · cases hdiscover
  · cases hdiscover

/-- What is digested for a file that the compiler lists is what the system opens for it from the
working directory. -/
def DigestsOpened (disk : Disk) (workingDir file : Path) (discovered : DiscoveredInputs) : Prop :=
  ∃ input ∈ discovered.inputs, input.path = absolute (normalizeComponents workingDir) file ∧
    disk.canonicalize input.path = disk.canonicalize (join workingDir file)

/-- The file that is digested is the one that the system opens if no step up in its path takes a
link away. With such links it is so exactly if what follows the last step up leads to one place
from both directories. -/
theorem discover_opened_iff {workingDir : String} {files : List String}
    (hdiscover : invocation.discover disk digests ⟨files.map components, environment⟩
      (components workingDir) mappings = .ok discovered) :
    ∀ file ∈ files,
      (TakesDirectories disk (join (components workingDir) (components file)) →
        DigestsOpened disk (components workingDir) (components file) discovered) ∧
      (DigestsOpened disk (components workingDir) (components file) discovered ↔
        AgreesAfterUp disk (join (components workingDir) (components file))) := by
  obtain ⟨habsolute, hinputs⟩ := discover_inputs hdiscover
  have hrooted := rooted_components habsolute
  intro file hfile
  have hiff : DigestsOpened disk (components workingDir) (components file) discovered ↔
      AgreesAfterUp disk (join (components workingDir) (components file)) := by
    rw [← canonicalize_normalized_iff (rooted_join hrooted), ← absolute_normalized hrooted]
    constructor
    · rintro ⟨input, -, hpath, hsame⟩
      rwa [hpath] at hsame
    · intro hsame
      obtain ⟨input, hinput, hpath⟩ := hinputs (components file) (List.mem_map_of_mem hfile)
      exact ⟨input, hinput, hpath, by rwa [hpath]⟩
  exact ⟨fun htakes => hiff.mpr (agreesAfterUp_of_takesDirectories (rooted_join hrooted) htakes),
    hiff⟩

private theorem discover_of_read {depInfo : RustcDepInfo} (habsolute : isAbsolute workingDir = true)
    (hread : ∀ path ∈ invocation.namedPaths (normalizeComponents workingDir) depInfo,
      ∃ bytes, disk.read path = .ok bytes) :
    ∃ discovered, invocation.discover disk digests depInfo workingDir none = .ok discovered := by
  unfold RustcInvocation.discover
  rw [if_pos habsolute]
  change ∃ discovered, fromPaths _ _ _ _ _ _ = .ok discovered
  unfold fromPaths
  rw [if_pos (Paths.isAbsolute_normalized habsolute)]
  choose! bytes hbytes using hread
  rw [Fallible.bind_of_ok (Fallible.mapM_ok (g := fun path =>
    ⟨path, digests.ofFile path (bytes path)⟩) fun path hpath => by rw [hbytes path hpath]; rfl)]
  exact ⟨_, rfl⟩

private theorem read_of_reaches {links : ℕ} {location : Location} {bytes : Protocol.Bytes}
    (hreaches : Reaches disk.tree links [] path location)
    (hfile : disk.tree location = some (.file (.regular bytes))) :
    disk.read path = .ok bytes := by
  unfold Disk.read
  rw [disk.canonicalize_eq, hreaches.realpath]
  simp only [hfile]

/-! ## A link on the way -/

/-- A library whose root is in the working directory. -/
def library : List OsString :=
  (["--crate-type", "lib", "--emit=link,dep-info", "--out-dir", "out", "lib.rs"]).map .utf8

private theorem library_parsed :
    ∃ invocation, RustcInvocation.parseWith plainHost library ⟨true, false⟩ =
    .ok invocation ∧ invocation.requiredInputs = [components "lib.rs"] := ⟨_, rfl, rfl⟩

/-- In the working directory is a link to a directory elsewhere, and a file of one name lies in
the working directory and next to what the link leads to. -/
noncomputable def linkedDisk : Disk :=
  .ofEntries [([], .dir), (["w"], .dir), (["w", "lib.rs"], .file (.regular [])),
    (["w", "x.rs"], .file (.regular [1])),
    (["w", "link"], .link [.top, .down "other", .down "dir"]),
    (["other"], .dir), (["other", "dir"], .dir), (["other", "x.rs"], .file (.regular [2]))] rfl
    (by decide +kernel)

private theorem reaches_root : Reaches linkedDisk.tree 0 [] (components "/w/lib.rs")
    ["w", "lib.rs"] :=
  .top rfl (.intoDir rfl rfl (.toFile rfl rfl))

theorem reaches_module : Reaches linkedDisk.tree 0 [] (components "/w/x.rs") ["w", "x.rs"] :=
  .top rfl (.intoDir rfl rfl (.toFile rfl rfl))

theorem reaches_other :
    Reaches linkedDisk.tree 1 [] (components "/w/link/../x.rs") ["other", "x.rs"] :=
  .top rfl (.intoDir rfl rfl (.follow rfl rfl (.top rfl (.intoDir rfl rfl
    (.intoDir rfl rfl (.up rfl (.toFile rfl rfl)))))))

private theorem library_discovered {file : String} (digests : Digests)
    (hfile : absolute (components "/w") (components file) = components "/w/x.rs") :
    ∃ invocation discovered,
      RustcInvocation.parseWith plainHost library ⟨true, false⟩ = .ok invocation ∧
        invocation.discover linkedDisk digests ⟨["lib.rs", file].map components, []⟩
          (components "/w") none = .ok discovered := by
  obtain ⟨invocation, hparse, hrequired⟩ := library_parsed
  obtain ⟨discovered, hdiscovered⟩ := @discover_of_read linkedDisk digests invocation
    (components "/w") ⟨["lib.rs", file].map components, []⟩ rfl fun path hpath => by
      have hnamed : path = components "/w/lib.rs" ∨ path = components "/w/x.rs" := by
        rcases List.mem_append.mp (List.mem_dedup.mp hpath) with hmem | hmem
        · rcases List.mem_cons.mp hmem with rfl | hmem
          · exact .inl rfl
          · exact .inr ((List.mem_singleton.mp hmem).trans hfile)
        · rw [hrequired] at hmem
          exact .inl (List.mem_singleton.mp hmem)
      rcases hnamed with rfl | rfl
      · exact ⟨_, read_of_reaches reaches_root rfl⟩
      · exact ⟨_, read_of_reaches reaches_module rfl⟩
  exact ⟨invocation, discovered, hparse, hdiscovered⟩

/-- A step up from a directory that no link leads to. -/
theorem discover_opened_iff_directory :
    ∃ invocation discovered,
      RustcInvocation.parseWith plainHost library ⟨true, false⟩ = .ok invocation ∧
        invocation.discover linkedDisk ⟨fun _ _ => "", fun _ => none⟩
          ⟨["lib.rs", "../w/x.rs"].map components, []⟩ (components "/w") none = .ok discovered ∧
        ∀ file ∈ ["lib.rs", "../w/x.rs"],
          DigestsOpened linkedDisk (components "/w") (components file) discovered := by
  obtain ⟨invocation, discovered, hparse, hdiscovered⟩ :=
    @library_discovered "../w/x.rs" ⟨fun _ _ => "", fun _ => none⟩ rfl
  refine ⟨invocation, discovered, hparse, hdiscovered, fun file hfile => ?_⟩
  refine (discover_opened_iff hdiscovered file hfile).1 ?_
  intro front back names name location heq hnames hfront
  rcases List.mem_cons.mp hfile with rfl | hfile
  · have hup : .up ∉ join (components "/w") (components "lib.rs") := by decide
    exact absurd (heq ▸ by simp) hup
  · obtain rfl := List.mem_singleton.mp hfile
    change [.top, .down "w", .up, .down "w", .down "x.rs"] = front ++ .up :: back at heq
    -- The only step up is the third step.
    obtain rfl : front = [.top, .down "w"] := by
      rcases front with _ | ⟨a, _ | ⟨b, _ | ⟨c, front⟩⟩⟩
      · simp at heq
      · simp at heq
      · simp_all
      · have hrest : [Step.down "w", .down "x.rs"] = front ++ .up :: back := by
          simpa using congrArg (List.drop 3) heq
        have hback : .up ∈ [Step.down "w", .down "x.rs"] := by
          rw [hrest]
          simp
        simp at hback
    obtain ⟨rfl, rfl⟩ : [] = names ∧ "w" = name := by
      obtain ⟨hleft, hright⟩ := List.append_inj' (hnames : [] ++ ["w"] = names ++ [name]) rfl
      exact ⟨hleft, (List.cons.inj hright).1⟩
    have hroot : Reaches linkedDisk.tree 0 [] [.top] [] := .top rfl .done
    obtain rfl : [] = location := Option.some.inj (hroot.realpath.symm.trans hfront)
    exact ⟨rfl, rfl⟩

/-- A step up after a link: the module in the working directory is digested, and the compiler
opened the one next to the directory that the link leads to. -/
theorem step_up_after_link_digests_another :
    ∃ invocation discovered,
      RustcInvocation.parseWith plainHost library ⟨true, false⟩ = .ok invocation ∧
        invocation.discover linkedDisk ⟨fun _ _ => "", fun _ => none⟩
          ⟨["lib.rs", "link/../x.rs"].map components, []⟩ (components "/w") none =
            .ok discovered ∧
        linkedDisk.canonicalize (components "/w/link/../x.rs") = some ["other", "x.rs"] ∧
        linkedDisk.canonicalize (absolute (components "/w") (components "link/../x.rs")) =
          some ["w", "x.rs"] ∧
        ¬ DigestsOpened linkedDisk (components "/w") (components "link/../x.rs") discovered := by
  obtain ⟨invocation, discovered, hparse, hdiscovered⟩ :=
    @library_discovered "link/../x.rs" ⟨fun _ _ => "", fun _ => none⟩ rfl
  refine ⟨invocation, discovered, hparse, hdiscovered, reaches_other.realpath,
    reaches_module.realpath, ?_⟩
  rintro ⟨input, -, hpath, hsame⟩
  rw [hpath] at hsame
  have hfound := (reaches_module.realpath.symm.trans hsame).trans reaches_other.realpath
  exact absurd hfound (by decide)

end MrBoxington.Rustc
