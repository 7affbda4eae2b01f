import Mathlib.Data.Countable.Basic
import Mathlib.Logic.Equiv.List
import MrBoxington.Rustdoc.Descriptor

/-!
# What a descriptor says about the input root

The walk leaves out directories with the name of a target directory at every depth, and
it records a file under the text of its path. So a descriptor determines the files that
the walk visits and that have their key to themselves. It says nothing about the sources
in a target directory which is not at the top of the input root.
-/

namespace MrBoxington.Rustdoc

open Protocol (Bytes Digest asciiBytes)

/-- A file that belongs to the sources: it lies neither in the configured target directory
nor in the target directory of the input root nor in a directory of version control. -/
def Counted (setting : Setting) (path : Path) : Prop :=
  isExcluded setting.inputRoot.1 setting.excluded path = false ∧
    ¬(path.head? = some targetName ∧ 1 < path.length) ∧ gitName ∉ path.dropLast

/-- Two states agree on the files at the paths with a property. -/
def AgreeOn (select : Path → Prop) (tree other : Entries) : Prop :=
  ∀ path, select path → tree.fileAt path = other.fileAt path

/-- The walk goes through the directories on a path from a directory. -/
def Visited (root : Path) (excluded : Option Path) (directory path : Path) : Prop :=
  targetName ∉ path.dropLast ∧ gitName ∉ path.dropLast ∧
    isExcluded root excluded (directory ++ path) = false

/-- The keys of the input files in the arguments. -/
def argumentKeys (host : Host) (setting : Setting) : List String :=
  (argumentPaths setting.arguments).filterMap fun
    | .ok path => some (normalize (host.absolute path) (pathMappings setting))
    | .error _ => none

/-- What the descriptors of two states need not show: the file at a path lies in a target
directory, or an argument or another file that the walk visits has the same key. -/
def Hidden (host : Host) (setting : Setting) (tree other : Entries) (path : Path) : Prop :=
  targetName ∈ path.dropLast ∨
    inputKey host setting.inputRoot.2 path ∈ argumentKeys host setting ∨
    ∃ second, second ≠ path ∧ Visited setting.inputRoot.1 setting.excluded [] second ∧
      ((tree.fileAt second).isSome ∨ (other.fileAt second).isSome) ∧
      inputKey host setting.inputRoot.2 second = inputKey host setting.inputRoot.2 path

section Sources

variable (root : Path) (excluded : Option Path)

mutual

/-- The files that the walk visits below an entry. -/
def Node.sources (path : Path) (name : FileName) : Node → List (Path × Bytes)
  | .file contents => [(path, contents)]
  | .dir entries => if name = gitName then [] else entries.sources path
  | _ => []

/-- The files that the walk visits in a directory. -/
def Entries.sources (directory : Path) : Entries → List (Path × Bytes)
  | .nil => []
  | .cons name node rest =>
    (if (name = targetName ∧ node.isDirOrSymlink) ∨
        isExcluded root excluded (directory ++ [name]) then []
      else node.sources (directory ++ [name]) name) ++ rest.sources directory

end

variable {root excluded} {tree : Entries} {name : FileName} {node : Node}

/-- What lies below an excluded path is excluded. -/
theorem isExcluded_append {path rest : Path}
    (hexcluded : isExcluded root excluded (path ++ rest) = false) :
    isExcluded root excluded path = false := by
  cases excluded with
  | none => rfl
  | some target =>
    rw [isExcluded, Bool.eq_false_iff, ne_eq, List.isPrefixOf_iff_prefix] at hexcluded ⊢
    rw [← List.append_assoc] at hexcluded
    exact fun hroot => hexcluded (hroot.trans (List.prefix_append _ _))

private theorem fileAt_of_not_mem_names {path : Path} (hnew : name ∉ tree.names) :
    tree.fileAt (name :: path) = none := by
  induction tree using Entries.names.induct with
  | case1 => rw [Entries.fileAt]
  | case2 other node rest ih =>
    rw [Entries.names, List.mem_cons, not_or] at hnew
    rw [Entries.fileAt, if_neg fun heq => hnew.1 heq.symm]
    exact ih hnew.2

private theorem ne_nil_of_fileAt {path : Path} {contents : Bytes}
    (hfile : tree.fileAt path = some contents) : path ≠ [] := by
  rintro rfl
  cases tree <;> cases hfile

private theorem visited_cons {directory rest : Path} (hrest : rest ≠ []) :
    Visited root excluded directory (name :: rest) ↔
      name ≠ targetName ∧ name ≠ gitName ∧ Visited root excluded (directory ++ [name]) rest := by
  simp only [Visited, List.dropLast_cons_of_ne_nil hrest, List.mem_cons, not_or, eq_comm,
    List.append_assoc, List.cons_append, List.nil_append]
  tauto

private theorem visited_singleton {directory : Path} :
    Visited root excluded directory [name] ↔
      isExcluded root excluded (directory ++ [name]) = false := by
  simp [Visited]

mutual

private theorem Node.mem_sources (directory : Path) (name : FileName) {path : Path}
    {contents : Bytes} : (node : Node) → node.Distinct →
    ((path, contents) ∈ (if (name = targetName ∧ node.isDirOrSymlink) ∨
        isExcluded root excluded (directory ++ [name]) then []
      else node.sources root excluded (directory ++ [name]) name) ↔
      ∃ rest, path = directory ++ name :: rest ∧ Visited root excluded directory (name :: rest) ∧
        node.fileAt rest = some contents)
  | .file found, _ => by
    have hfile : ∀ rest, (Node.file found).fileAt rest = some contents ↔
        rest = [] ∧ found = contents := by
      intro rest
      cases rest <;> simp [Node.fileAt]
    by_cases hexcluded : isExcluded root excluded (directory ++ [name]) = true
    · simp [hfile, visited_singleton, hexcluded]
    · simp [Node.sources, Node.isDirOrSymlink, hfile, visited_singleton, hexcluded, eq_comm]
  | .dir entries, hdistinct => by
    have hinner := @Entries.mem_sources (directory ++ [name]) path contents entries hdistinct
    have hopen : (path, contents) ∈ entries.sources root excluded (directory ++ [name]) →
        isExcluded root excluded (directory ++ [name]) = false := by
      rw [hinner]
      rintro ⟨rest, -, hvisited, -⟩
      exact isExcluded_append hvisited.2.2
    have hbelow : (∃ rest, path = directory ++ name :: rest ∧
        Visited root excluded directory (name :: rest) ∧
          (Node.dir entries).fileAt rest = some contents) ↔
        name ≠ targetName ∧ name ≠ gitName ∧
          (path, contents) ∈ entries.sources root excluded (directory ++ [name]) := by
      rw [hinner]
      constructor
      · rintro ⟨rest, rfl, hvisited, hfile⟩
        rw [Node.fileAt] at hfile
        obtain ⟨htarget, hgit, hvisited⟩ := (visited_cons (ne_nil_of_fileAt hfile)).1 hvisited
        exact ⟨htarget, hgit, rest, by simp, hvisited, hfile⟩
      · rintro ⟨htarget, hgit, rest, rfl, hvisited, hfile⟩
        have hvisited := (visited_cons (ne_nil_of_fileAt hfile)).2 ⟨htarget, hgit, hvisited⟩
        exact ⟨rest, by simp, hvisited, by rw [Node.fileAt, hfile]⟩
    rw [hbelow, Node.sources]
    by_cases htarget : name = targetName
    · simp [htarget, Node.isDirOrSymlink]
    · by_cases hgit : name = gitName
      · simp [hgit]
      · cases hexcluded : isExcluded root excluded (directory ++ [name]) with
        | false => simp [htarget, hgit]
        | true => simpa [htarget, hgit, hexcluded] using hopen
  | .symlink, _ => by simp [Node.sources, Node.fileAt]
  | .other, _ => by simp [Node.sources, Node.fileAt]

private theorem Entries.mem_sources (directory : Path) {path : Path} {contents : Bytes} :
    (tree : Entries) → tree.Distinct →
    ((path, contents) ∈ tree.sources root excluded directory ↔
      ∃ rest, path = directory ++ rest ∧ Visited root excluded directory rest ∧
        tree.fileAt rest = some contents)
  | .nil, _ => by simp [Entries.sources, Entries.fileAt]
  | .cons name node rest, hdistinct => by
    obtain ⟨hnew, hnode, hrest⟩ := hdistinct
    rw [Entries.sources, List.mem_append, Node.mem_sources directory name node hnode,
      Entries.mem_sources directory rest hrest]
    constructor
    · rintro (⟨path, rfl, hvisited, hfile⟩ | ⟨path, rfl, hvisited, hfile⟩)
      · exact ⟨name :: path, rfl, hvisited, by rw [Entries.fileAt, if_pos rfl, hfile]⟩
      · cases path with
        | nil => exact absurd rfl (ne_nil_of_fileAt hfile)
        | cons first path =>
          have hne : name ≠ first := by
            rintro rfl
            rw [fileAt_of_not_mem_names hnew] at hfile
            cases hfile
          exact ⟨first :: path, rfl, hvisited, by rw [Entries.fileAt, if_neg hne, hfile]⟩
    · rintro ⟨path, rfl, hvisited, hfile⟩
      cases path with
      | nil => exact absurd rfl (ne_nil_of_fileAt hfile)
      | cons first path =>
        rw [Entries.fileAt] at hfile
        split at hfile
        · rename_i heq
          subst heq
          exact .inl ⟨path, rfl, hvisited, hfile⟩
        · exact .inr ⟨first :: path, rfl, hvisited, hfile⟩

end

end Sources

section Inputs

variable {host : Host} {setting : Setting} {tree other : Entries}

/-- Record files under their keys. -/
def addSources (host : Host) (portableRoot : String) (sources : List (Path × Bytes))
    (inputs : Inputs) : Inputs :=
  sources.foldl (fun inputs (path, contents) =>
    inputs.insert (inputKey host portableRoot path) (blake3File host contents)) inputs

private theorem addSources_append {portableRoot : String} {first second : List (Path × Bytes)}
    {inputs : Inputs} :
    addSources host portableRoot (first ++ second) inputs =
      addSources host portableRoot second (addSources host portableRoot first inputs) :=
  List.foldl_append

private theorem getElem?_addSources {portableRoot key : String} {digest : Digest}
    {sources : List (Path × Bytes)} {inputs : Inputs}
    (hdigest : (addSources host portableRoot sources inputs)[key]? = some digest) :
    (∃ path contents, (path, contents) ∈ sources ∧ inputKey host portableRoot path = key ∧
      blake3File host contents = digest) ∨ inputs[key]? = some digest := by
  induction sources generalizing inputs with
  | nil => exact .inr hdigest
  | cons source rest ih =>
    obtain ⟨path, contents⟩ := source
    rcases ih hdigest with ⟨found, bytes, hmem, hfound⟩ | hbefore
    · exact .inl ⟨found, bytes, List.mem_cons_of_mem _ hmem, hfound⟩
    · rw [Std.TreeMap.getElem?_insert] at hbefore
      split at hbefore
      · rename_i hkey
        exact .inl ⟨path, contents, List.mem_cons_self, Std.compare_eq_iff_eq.1 hkey,
          Option.some.inj hbefore⟩
      · exact .inr hbefore

private theorem mem_addSources {portableRoot key : String} {sources : List (Path × Bytes)}
    {inputs : Inputs}
    (hkey : key ∈ inputs ∨ ∃ source ∈ sources, inputKey host portableRoot source.1 = key) :
    key ∈ addSources host portableRoot sources inputs := by
  induction sources generalizing inputs with
  | nil => simpa [addSources] using hkey
  | cons source rest ih =>
    refine ih ?_
    rw [Std.TreeMap.mem_insert, Std.compare_eq_iff_eq]
    rcases hkey with hbefore | ⟨found, hfound, hkey⟩
    · exact .inl (.inr hbefore)
    · rcases List.mem_cons.1 hfound with rfl | hrest
      · exact .inl (.inl hkey)
      · exact .inr ⟨found, hrest, hkey⟩

mutual

private theorem collectNode_ok {root : Path} {portableRoot : String} {excluded : Option Path}
    (path : Path) (name : FileName) {inputs result : Inputs} : (node : Node) →
    collectNode host root portableRoot excluded path name node inputs = .ok result →
    result = addSources host portableRoot (node.sources root excluded path name) inputs
  | .file contents, hcollect => by
    rw [collectNode] at hcollect
    exact (Except.ok.inj hcollect).symm
  | .dir entries, hcollect => by
    rw [collectNode] at hcollect
    rw [Node.sources]
    split at hcollect
    · rename_i hgit
      rw [if_pos hgit]
      exact (Except.ok.inj hcollect).symm
    · rename_i hgit
      rw [if_neg hgit]
      exact collectTree_ok path entries hcollect
  | .symlink, hcollect => by cases hcollect
  | .other, hcollect => by
    rw [collectNode] at hcollect
    exact (Except.ok.inj hcollect).symm

private theorem collectTree_ok {root : Path} {portableRoot : String} {excluded : Option Path}
    (directory : Path) {inputs result : Inputs} : (tree : Entries) →
    collectTree host root portableRoot excluded directory tree inputs = .ok result →
    result = addSources host portableRoot (tree.sources root excluded directory) inputs
  | .nil, hcollect => by
    rw [collectTree] at hcollect
    exact (Except.ok.inj hcollect).symm
  | .cons name node rest, hcollect => by
    rw [collectTree] at hcollect
    rw [Entries.sources, addSources_append]
    split at hcollect
    · rename_i hskip
      rw [if_pos hskip]
      exact collectTree_ok directory rest hcollect
    · rename_i hskip
      rw [if_neg hskip]
      split at hcollect
      · cases hcollect
      · rename_i hnode
        rw [← collectNode_ok _ name node hnode]
        exact collectTree_ok directory rest hcollect

end

private theorem collectArgumentInputs_ok {mappings : List (String × String)} {key : String}
    {paths : List (Except String String)} {inputs result : Inputs}
    (hkey : ∀ path, .ok path ∈ paths → normalize (host.absolute path) mappings ≠ key)
    (hcollect : collectArgumentInputs host tree mappings paths inputs = .ok result) :
    result[key]? = inputs[key]? := by
  induction paths generalizing inputs with
  | nil => rw [Except.ok.inj hcollect]
  | cons path rest ih =>
    cases path with
    | error failure => cases hcollect
    | ok path =>
      unfold collectArgumentInputs at hcollect
      split at hcollect
      · cases hcollect
      · rw [ih (fun path hmem => hkey path (List.mem_cons_of_mem _ hmem)) hcollect,
          Std.TreeMap.getElem?_insert,
          if_neg fun heq => hkey path List.mem_cons_self (Std.compare_eq_iff_eq.1 heq)]

private theorem actionDescriptor_ok {bytes : Bytes}
    (hbytes : actionDescriptor host setting tree = .ok bytes) :
    ∃ identity inputs, setting.identity = .ok identity ∧
      bytes = host.canonicalJson (descriptorWith setting identity inputs) ∧
      ∀ key ∉ argumentKeys host setting, inputs[key]? =
        (addSources host setting.inputRoot.2
          (tree.sources setting.inputRoot.1 setting.excluded []) ∅)[key]? := by
  unfold actionDescriptor at hbytes
  split at hbytes
  · cases hbytes
  · rename_i identity hidentity
    dsimp only at hbytes
    split at hbytes
    · cases hbytes
    · rename_i walked hwalk
      split at hbytes
      · cases hbytes
      · rename_i inputs harguments
        refine ⟨identity, inputs, hidentity, (Except.ok.inj hbytes).symm, fun key hkey => ?_⟩
        rw [← collectTree_ok [] tree hwalk]
        refine collectArgumentInputs_ok (fun path hpath heq => hkey ?_) harguments
        exact List.mem_filterMap.2 ⟨.ok path, hpath, congrArg some heq⟩

private theorem fileAt_of_not_hidden (hhash : ∀ left right, host.hasher .blake3 left =
      host.hasher .blake3 right → left = right)
    (hjson : Function.Injective host.canonicalJson) (htree : tree.Distinct)
    (hother : other.Distinct) {bytes : Bytes}
    (hbytes : actionDescriptor host setting tree = .ok bytes)
    (hbytes' : actionDescriptor host setting other = .ok bytes) {path : Path} {contents : Bytes}
    (hcounted : Counted setting path) (hshown : ¬Hidden host setting tree other path)
    (hfile : tree.fileAt path = some contents) : other.fileAt path = some contents := by
  obtain ⟨identity, inputs, hidentity, hdescriptor, hwalk⟩ := actionDescriptor_ok hbytes
  obtain ⟨identity', inputs', hidentity', hdescriptor', hwalk'⟩ := actionDescriptor_ok hbytes'
  obtain ⟨htarget, hkey, halone⟩ := by simpa only [Hidden, not_or] using hshown
  have hvisited : Visited setting.inputRoot.1 setting.excluded [] path :=
    ⟨htarget, hcounted.2.2, hcounted.1⟩
  have hsame : ∀ second, Visited setting.inputRoot.1 setting.excluded [] second →
      (tree.fileAt second).isSome ∨ (other.fileAt second).isSome →
      inputKey host setting.inputRoot.2 second = inputKey host setting.inputRoot.2 path →
      second = path :=
    fun second hsecond hfile heq =>
      by_contra fun hne => halone ⟨second, hne, hsecond, hfile, heq⟩
  have hinputs : inputs.toList = inputs'.toList :=
    congrArg ActionDescriptor.inputs (hjson (hdescriptor.symm.trans hdescriptor'))
  have hsource : (path, contents) ∈ tree.sources setting.inputRoot.1 setting.excluded [] :=
    (Entries.mem_sources [] tree htree).2 ⟨path, rfl, hvisited, hfile⟩
  -- The key of the file is recorded, with the digest of a file that has this key.
  obtain ⟨digest, hdigest⟩ := Option.isSome_iff_exists.1 (Std.TreeMap.isSome_getElem?_iff_mem.2
    (mem_addSources (.inr ⟨_, hsource, rfl⟩) :
      inputKey host setting.inputRoot.2 path ∈ addSources host setting.inputRoot.2 _ ∅))
  have hown : blake3File host contents = digest := by
    rcases getElem?_addSources hdigest with ⟨second, found, hmem, heq, hfrom⟩ | hempty
    · obtain ⟨second, rfl, hsecond, hfound⟩ := (Entries.mem_sources [] tree htree).1 hmem
      obtain rfl := hsame second hsecond (.inl (by rw [hfound]; rfl)) heq
      rw [← hfrom, Option.some.inj (hfound.symm.trans hfile)]
    · cases hempty.symm.trans Std.TreeMap.getElem?_emptyc
  rw [← hwalk _ hkey, ← Std.TreeMap.mem_toList_iff_getElem?_eq_some, hinputs,
    Std.TreeMap.mem_toList_iff_getElem?_eq_some, hwalk' _ hkey] at hdigest
  rcases getElem?_addSources hdigest with ⟨second, found, hmem, heq, hfrom⟩ | hempty
  · obtain ⟨second, rfl, hsecond, hfound⟩ := (Entries.mem_sources [] other hother).1 hmem
    obtain rfl := hsame second hsecond (.inr (by rw [hfound]; rfl)) heq
    have hhashes := congrArg Digest.hash (hfrom.trans hown.symm)
    rw [hfound, hhash _ _ hhashes]
  · cases hempty.symm.trans Std.TreeMap.getElem?_emptyc

private theorem Hidden.symm {path : Path} (hhidden : Hidden host setting tree other path) :
    Hidden host setting other tree path := by
  rcases hhidden with htarget | hkey | ⟨second, hne, hvisited, hfile, heq⟩
  · exact .inl htarget
  · exact .inr (.inl hkey)
  · exact .inr (.inr ⟨second, hne, hvisited, hfile.symm, heq⟩)

/-- Two states with one descriptor have the same sources if and only if they agree on the
hidden ones. -/
theorem actionDescriptor_determines_iff (hhash : ∀ left right, host.hasher .blake3 left =
      host.hasher .blake3 right → left = right)
    (hjson : Function.Injective host.canonicalJson) (htree : tree.Distinct)
    (hother : other.Distinct) {bytes : Bytes}
    (hbytes : actionDescriptor host setting tree = .ok bytes)
    (hbytes' : actionDescriptor host setting other = .ok bytes) :
    AgreeOn (Counted setting) tree other ↔
      AgreeOn (fun path => Counted setting path ∧ Hidden host setting tree other path)
        tree other := by
  constructor
  · exact fun hagree path hpath => hagree path hpath.1
  · intro hagree path hcounted
    by_cases hhidden : Hidden host setting tree other path
    · exact hagree path ⟨hcounted, hhidden⟩
    · refine Option.ext fun contents => ⟨fun hfile => ?_, fun hfile => ?_⟩
      · exact fileAt_of_not_hidden hhash hjson htree hother hbytes hbytes' hcounted hhidden hfile
      · exact fileAt_of_not_hidden hhash hjson hother htree hbytes' hbytes hcounted
          (fun h => hhidden h.symm) hfile

end Inputs

section Runs

private theorem countable_actionDescriptor : Countable ActionDescriptor := by
  have hchar : Countable Char :=
    Function.Injective.countable (f := Char.toNat) fun _ _ heq => Char.toNat_inj.1 heq
  have hstring : Countable String :=
    Function.Injective.countable (f := String.toList) fun _ _ heq => String.toList_inj.1 heq
  have hdigest : Countable Digest := Function.Injective.countable
    (f := fun digest => (digest.algorithm, digest.hash, digest.size)) fun left right heq => by
      cases left
      cases right
      simpa using heq
  exact Function.Injective.countable (f := fun descriptor => (descriptor.adapter,
    descriptor.version, descriptor.rustdoc, descriptor.arguments, descriptor.environment,
    descriptor.inputs)) fun left right heq => by
      cases left
      cases right
      simpa using heq

/-- Bytes written as text, one character for each. -/
def plainText (bytes : Bytes) : String :=
  String.ofList (bytes.map fun byte => Char.ofNat byte.toNat)

theorem plainText_injective : Function.Injective plainText := by
  have hchar : Function.Injective fun byte : UInt8 => Char.ofNat byte.toNat := by
    intro first second hchar
    have hvalid : ∀ byte : UInt8, (Char.ofNat byte.toNat).toNat = byte.toNat := by
      intro byte
      have hlt := byte.toNat_lt
      have hvalid : byte.toNat.isValidChar := .inl (by omega)
      rw [Char.ofNat, dif_pos hvalid]
      rfl
    exact UInt8.toNat_inj.1 (by rw [← hvalid first, ← hvalid second]; exact congrArg _ hchar)
  intro left right heq
  exact List.map_injective_iff.2 hchar (String.ofList_injective heq)

/-- A host that writes the contents of a file as text and numbers the descriptors. -/
noncomputable def plainHost : Host where
  lossy := plainText
  hasher _ := plainText
  absolute path := path
  readFile _ _ := none
  canonicalJson descriptor :=
    List.replicate (Classical.choose countable_actionDescriptor.exists_injective_nat' descriptor) 0

/-- A package without a workspace. -/
def plainSetting : Setting where
  identity := .ok "rustdoc 1.0.0"
  arguments := []
  manifest := ⟨"/package", [asciiBytes "package"]⟩
  vars := []
  target := none
  workspace := none

/-- A package with one module in a directory `src/target`. -/
def packageWith (contents : Bytes) : Entries :=
  .cons (asciiBytes "src")
    (.dir (.cons targetName (.dir (.cons (asciiBytes "mod.rs") (.file contents) .nil))
      (.cons (asciiBytes "lib.rs") (.file []) .nil))) .nil

private theorem plainHost_hasher (left right : Bytes)
    (heq : plainHost.hasher .blake3 left = plainHost.hasher .blake3 right) : left = right :=
  plainText_injective heq

private theorem plainHost_canonicalJson : Function.Injective plainHost.canonicalJson := by
  intro left right heq
  refine Classical.choose_spec countable_actionDescriptor.exists_injective_nat' ?_
  simpa [plainHost] using congrArg List.length heq

private theorem packageWith_distinct (contents : Bytes) : (packageWith contents).Distinct := by
  simp [packageWith, Entries.Distinct, Node.Distinct, Entries.names]
  decide

/-- The package after something was built in it. -/
def builtPackage : Entries :=
  .cons targetName (.dir (.cons (asciiBytes "doc") (.file [2]) .nil)) (packageWith [0])

theorem actionDescriptor_determines_iff_built :
    actionDescriptor plainHost plainSetting (packageWith [0]) =
        actionDescriptor plainHost plainSetting builtPackage ∧
      (AgreeOn (Counted plainSetting) (packageWith [0]) builtPackage ↔
        AgreeOn (fun path => Counted plainSetting path ∧
          Hidden plainHost plainSetting (packageWith [0]) builtPackage path)
          (packageWith [0]) builtPackage) := by
  have hbuilt : builtPackage.Distinct := by
    refine ⟨by decide, ?_, packageWith_distinct _⟩
    simp [Node.Distinct, Entries.Distinct, Entries.names]
  exact ⟨rfl, actionDescriptor_determines_iff plainHost_hasher plainHost_canonicalJson
    (packageWith_distinct _) hbuilt rfl rfl⟩

/-- The module may change without a change of the descriptor. -/
theorem actionDescriptor_misses_module :
    (∀ left right, plainHost.hasher .blake3 left = plainHost.hasher .blake3 right →
        left = right) ∧
      Function.Injective plainHost.canonicalJson ∧
      (packageWith [0]).Distinct ∧ (packageWith [1]).Distinct ∧
      (∃ bytes, actionDescriptor plainHost plainSetting (packageWith [0]) = .ok bytes ∧
        actionDescriptor plainHost plainSetting (packageWith [1]) = .ok bytes) ∧
      ¬AgreeOn (Counted plainSetting) (packageWith [0]) (packageWith [1]) := by
  refine ⟨plainHost_hasher, plainHost_canonicalJson, packageWith_distinct _,
    packageWith_distinct _, ⟨_, rfl, rfl⟩, fun hagree => ?_⟩
  have hfile := hagree [asciiBytes "src", targetName, asciiBytes "mod.rs"]
    ⟨rfl, by decide, by decide⟩
  revert hfile
  decide

end Runs

end MrBoxington.Rustdoc
