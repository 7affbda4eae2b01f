import MrBoxington.Rustc.MappedPaths
import MrBoxington.Rustc.OpenedFiles

/-!
# Reading paths of keys back

A path that is written from a placeholder and read back leads to the same file, however links
lie between the path and the roots: both are followed to real locations, and what lies between
two real locations is made of directories only. What is read back lies below its root, unless a
part of it names a drive.
-/

namespace MrBoxington.Rustc

open BuildScript (components)
open Paths (IsName Path Rooted VolumePath isAbsolute join normalizeComponents)
open PosixTree (Location Real Reaches realpath)
open Strings (split stripPrefix)

variable {disk : Disk} {path workingDir : Path} {location : Location} {names rest : List String}

/-! ## Following links -/

private theorem Disk.real_of_canonicalize (hfound : disk.canonicalize path = some location) :
    Real disk.tree location := by
  rw [disk.canonicalize_eq] at hfound
  obtain ⟨links, hreaches⟩ := PosixTree.realpath_eq_some.mp hfound
  exact hreaches.real (.nil disk.root)

private theorem Disk.canonicalize_real (hreal : Real disk.tree location) :
    disk.canonicalize (locationPath location) = some location := by
  rw [disk.canonicalize_eq]
  have hreaches : Reaches disk.tree 0 [] (location.map .down) location := hreal.reaches
  exact (Reaches.top disk.root hreaches).realpath

private theorem locationPath_append :
    locationPath (names ++ rest) = locationPath names ++ rest.map .down := by
  simp [locationPath]

private theorem locationPath_injective : Function.Injective locationPath := by
  intro left right heq
  exact List.map_injective_iff.mpr (fun _ _ hdown => PosixTree.Step.down.inj hdown)
    (List.cons.inj heq).2

private theorem Disk.canonicalize_append : disk.canonicalize (path ++ rest.map .down) =
    (disk.canonicalize path).bind fun middle => realpath disk.tree middle (rest.map .down) := by
  rw [disk.canonicalize_eq, disk.canonicalize_eq, PosixTree.realpath_append]

private theorem isLink_eq_false {node : PosixTree.Node Contents}
    (hlink : disk.isLink location = false)
    (hnode : disk.tree location = some node) : ∀ target, node ≠ .link target := by
  rintro target rfl
  simp [Disk.isLink, hnode] at hlink

private theorem Disk.canonicalizeAlias_eq :
    disk.canonicalizeAlias (locationPath names) = disk.canonicalize (locationPath names) := by
  cases names using List.reverseRecOn with
  | nil => rfl
  | append_singleton names name =>
    have hparent : Paths.parent (locationPath (names ++ [name])) = some (locationPath names) := by
      simp [Paths.parent, locationPath_append]
    have hname : Paths.fileName (locationPath (names ++ [name])) = some name := by
      simp [Paths.fileName, locationPath_append]
    have hne : locationPath names ≠ [] := List.cons_ne_nil _ _
    simp only [canonicalizeAlias, hparent, hname, if_neg hne]
    rw [locationPath_append, disk.canonicalize_append]
    cases hfound : disk.canonicalize (locationPath names) with
    | none => rfl
    | some resolved =>
      have hreal := disk.real_of_canonicalize hfound
      rw [Option.bind_some, Option.bind_some]
      split
      · rename_i hlisted
        obtain ⟨hlisted, hlink⟩ := hlisted
        unfold listing at hlisted
        split at hlisted
        · rename_i hdir
          have hsome := (disk.mem_names resolved name).mp (List.mem_of_mem_take hlisted)
          obtain ⟨node, hnode⟩ := Option.ne_none_iff_exists'.mp hsome
          exact (Reaches.enter hdir hnode (isLink_eq_false hlink hnode) .done).realpath.symm
        · cases hlisted
      · rw [locationPath_append, disk.canonicalize_append, disk.canonicalize_real hreal]
        rfl

private theorem normalizeComponents_locationPath :
    normalizeComponents (locationPath names) = locationPath names :=
  @Paths.normalizeComponents_append_names [.top] names

private theorem Disk.resolveFrom_of_some {missing : List String}
    (hfound : disk.canonicalize (locationPath names) = some location) :
    disk.resolveFrom path (locationPath names).reverse missing =
      locationPath (location ++ missing) := by
  rw [resolveFrom.eq_def, List.reverse_reverse, canonicalizeAlias_eq, hfound]
  exact normalizeComponents_locationPath

/-- A path that exists resolves to its real location. -/
theorem Disk.resolvePathAliases_of_some
    (hfound : disk.canonicalize (locationPath names) = some location) :
    disk.resolvePathAliases (locationPath names) = locationPath location := by
  rw [resolvePathAliases, resolveFrom_of_some hfound, List.append_nil]

private theorem Disk.resolveFrom_of_none {missing : List String} {name : String}
    (hfound : disk.canonicalize (locationPath (names ++ [name])) = none) :
    disk.resolveFrom path (locationPath (names ++ [name])).reverse missing =
      disk.resolveFrom path (locationPath names).reverse (name :: missing) := by
  rw [resolveFrom.eq_def, List.reverse_reverse, canonicalizeAlias_eq, hfound]
  simp [locationPath]

private theorem Disk.resolveFrom_eq {missing : List String} :
    ∃ kept last found, names = kept ++ last ∧
      disk.canonicalize (locationPath kept) = some found ∧
      disk.resolveFrom path (locationPath names).reverse missing =
        locationPath (found ++ (last ++ missing)) := by
  induction names using List.reverseRecOn generalizing missing with
  | nil =>
    have hroot : disk.canonicalize (locationPath []) = some [] :=
      disk.canonicalize_real (.nil disk.root)
    exact ⟨[], [], [], rfl, hroot, resolveFrom_of_some hroot⟩
  | append_singleton names name ih =>
    cases hfound : disk.canonicalize (locationPath (names ++ [name])) with
    | some found =>
      exact ⟨names ++ [name], [], found, (List.append_nil _).symm, hfound,
        resolveFrom_of_some hfound⟩
    | none =>
      obtain ⟨kept, last, found, rfl, hkept, heq⟩ := @ih (name :: missing)
      refine ⟨kept, last ++ [name], found, List.append_assoc _ _ _, hkept, ?_⟩
      rw [resolveFrom_of_none hfound, heq, List.append_assoc, List.singleton_append]

private theorem realpath_of_real (hreal : Real disk.tree (location ++ names)) :
    realpath disk.tree location ((names ++ rest).map .down) =
      realpath disk.tree (location ++ names) (rest.map .down) := by
  rw [List.map_append, PosixTree.realpath_append, hreal.reaches.realpath]
  rfl

private theorem Disk.canonicalize_of_resolved {names' : List String}
    (hsame : disk.resolvePathAliases (locationPath names) =
      disk.resolvePathAliases (locationPath names') ++ rest.map .down) :
    disk.canonicalize (locationPath names' ++ rest.map .down) =
      disk.canonicalize (locationPath names) := by
  obtain ⟨kept, last, found, rfl, hkept, heq⟩ :=
    @Disk.resolveFrom_eq disk (locationPath names) names []
  obtain ⟨kept', last', found', rfl, hkept', heq'⟩ :=
    @Disk.resolveFrom_eq disk (locationPath names') names' []
  have hreal := disk.real_of_canonicalize hkept
  have hreal' := disk.real_of_canonicalize hkept'
  have hlocations : found ++ last = found' ++ (last' ++ rest) := by
    unfold resolvePathAliases at hsame
    rw [heq, heq', ← locationPath_append] at hsame
    simpa using locationPath_injective hsame
  rw [locationPath_append, locationPath_append, List.append_assoc, ← List.map_append,
    disk.canonicalize_append, disk.canonicalize_append, hkept, hkept', Option.bind_some,
    Option.bind_some]
  rcases List.append_eq_append_iff.mp hlocations with ⟨between, rfl, rfl⟩ | ⟨between, rfl, hlast⟩
  · exact (realpath_of_real hreal').symm
  · rw [hlast]
    exact realpath_of_real hreal

/-! ## Accepted mappings -/

section Accepted

variable {π : Type} {platform : Platform π} {mapping mapping' : MappedRoot π}
  {mappings : List (MappedRoot π)} {value suffix suffix' placeholder placeholder' : String}

/-- What is known of the placeholders of accepted mappings. -/
structure Accepted (mappings : List (MappedRoot π)) : Prop where
  isPlaceholder : ∀ mapping ∈ mappings, isPlaceholder mapping.placeholder = true
  nodup : (mappings.map MappedRoot.placeholder).Nodup

private theorem accepted_of_check [DecidableEq π] {roots : List π} {placeholders : List String}
    (hcheck : checkMappings platform roots placeholders mappings = .ok ()) :
    Accepted mappings ∧
      ∀ mapping ∈ mappings, mapping.placeholder ∉ placeholders := by
  induction mappings generalizing roots placeholders with
  | nil => exact ⟨⟨nofun, List.nodup_nil⟩, nofun⟩
  | cons mapping mappings ih =>
    unfold checkMappings at hcheck
    split at hcheck
    · split at hcheck
      · rename_i hvalid
        obtain ⟨hrest, hfresh⟩ := ih hcheck
        refine ⟨⟨?_, ?_⟩, ?_⟩
        · exact List.forall_mem_cons.mpr ⟨hvalid.1, hrest.isPlaceholder⟩
        · refine List.nodup_cons.mpr ⟨fun hmem => ?_, hrest.nodup⟩
          obtain ⟨other, hother, heq⟩ := List.mem_map.mp hmem
          exact hfresh other hother (by rw [heq]; exact List.mem_cons_self)
        · refine List.forall_mem_cons.mpr ⟨hvalid.2.2, fun other hother hmem => ?_⟩
          exact hfresh other hother (List.mem_cons_of_mem _ hmem)
      · cases hcheck
    · cases hcheck

private theorem accepted_of_validate [DecidableEq π] {resolveMappingRoot : π → π} {workingDir : π}
    (hvalid : validateMappings platform resolveMappingRoot workingDir mappings = .ok ()) :
    platform.isAbsolute workingDir = true ∧ Accepted mappings := by
  unfold validateMappings at hvalid
  split at hvalid
  · rename_i habsolute
    obtain ⟨haccepted, -⟩ := accepted_of_check hvalid
    have hperm : (ordered platform mappings).Perm mappings := List.perm_insertionSort _ _
    have hplaceholders : (builderMappings platform resolveMappingRoot mappings).map
        MappedRoot.placeholder = (ordered platform mappings).map MappedRoot.placeholder := by
      rw [builderMappings, resolvePathMappings, List.map_map]
      rfl
    refine ⟨habsolute, fun mapping hmapping => ?_, ?_⟩
    · exact haccepted.isPlaceholder ⟨resolveMappingRoot mapping.root, mapping.placeholder⟩
        (List.mem_map_of_mem (hperm.mem_iff.mpr hmapping))
    · have hnodup := haccepted.nodup
      rw [hplaceholders] at hnodup
      exact (hperm.map _).nodup_iff.mp hnodup
  · cases hvalid

private theorem Accepted.unique (haccepted : Accepted mappings) (hmem : mapping ∈ mappings)
    (hmem' : mapping' ∈ mappings) (heq : mapping.placeholder = mapping'.placeholder) :
    mapping = mapping' :=
  List.inj_on_of_nodup_map haccepted.nodup hmem hmem' heq

private theorem not_mem_of_isPlaceholder (hplaceholder : isPlaceholder placeholder = true) :
    '\x7d' ∉ placeholder.toList := by
  intro hmem
  simp only [isPlaceholder, decide_eq_true_eq] at hplaceholder
  exact absurd (List.all_eq_true.mp hplaceholder.2 _ hmem) (by decide)

/-- A text starts with the text of a placeholder. -/
def Begins (value placeholder : String) : Prop :=
  ∃ rest, value = placeholderText placeholder ++ rest

private theorem Begins.unique (hbegins : Begins value placeholder)
    (hbegins' : Begins value placeholder')
    (hplaceholder : isPlaceholder placeholder = true)
    (hplaceholder' : isPlaceholder placeholder' = true) : placeholder = placeholder' := by
  obtain ⟨rest, rfl⟩ := hbegins
  obtain ⟨rest', heq⟩ := hbegins'
  simp only [placeholderText, String.append_assoc] at heq
  have htexts := congrArg String.toList (Strings.append_left_cancel heq)
  have hcut (text : String) (hnot : '\x7d' ∉ text.toList) (back : String) :
      Strings.cut '\x7d' (text ++ ("\x7d" ++ back)).toList = some (text.toList, back.toList) :=
    Strings.cut_eq_some.mpr ⟨by rw [String.toList_append, String.toList_append]; rfl, hnot⟩
  have hsame := (hcut placeholder (not_mem_of_isPlaceholder hplaceholder) rest).symm.trans
    ((congrArg (Strings.cut '\x7d') htexts).trans
      (hcut placeholder' (not_mem_of_isPlaceholder hplaceholder') rest'))
  exact String.toList_injective (congrArg Prod.fst (Option.some.inj hsame))

private theorem begins_of_suffixOf (hsuffix : suffixOf value placeholder = some suffix) :
    Begins value placeholder := by
  unfold suffixOf at hsuffix
  split at hsuffix
  · rename_i heq
    exact ⟨"", by rw [heq, String.append_empty]⟩
  · rw [Strings.stripPrefix_eq_some] at hsuffix
    exact ⟨"/" ++ suffix, by rw [hsuffix, String.append_assoc]⟩

private theorem denormalizeWith_ok {result : π}
    (hresult : denormalizeWith platform value mappings = .ok result) :
    ∃ mapping ∈ mappings, ∃ suffix, suffixOf value mapping.placeholder = some suffix ∧
      platform.isAbsolute mapping.root = true ∧
      result = ((split suffix '/').filter (· ≠ "")).foldl platform.push
        (platform.normalizeComponents mapping.root) := by
  induction mappings with
  | nil => cases hresult
  | cons mapping mappings ih =>
    unfold denormalizeWith at hresult
    split at hresult
    · obtain ⟨found, hfound, hrest⟩ := ih hresult
      exact ⟨found, List.mem_cons_of_mem _ hfound, hrest⟩
    · rename_i suffix hsuffix
      split at hresult
      · rename_i haccepts
        cases hresult
        exact ⟨mapping, List.mem_cons_self, suffix, hsuffix, haccepts.1, rfl⟩
      · cases hresult

end Accepted

/-! ## Below the root -/

section Below

variable {value : String}

/-- The suffix of an accepted mapping is the one of the placeholder that the text begins with. -/
theorem Accepted.denormalized {π : Type} {platform : Platform π} {mapping : MappedRoot π}
    {mappings : List (MappedRoot π)} {result : π} (haccepted : Accepted mappings)
    (hmem : mapping ∈ mappings) (hbegins : Begins value mapping.placeholder)
    (hresult : denormalizeWith platform value mappings = .ok result) :
    ∃ suffix, suffixOf value mapping.placeholder = some suffix ∧
      platform.isAbsolute mapping.root = true ∧
      result = ((split suffix '/').filter (· ≠ "")).foldl platform.push
        (platform.normalizeComponents mapping.root) := by
  obtain ⟨found, hfound, suffix, hsuffix, habsolute, rfl⟩ := denormalizeWith_ok hresult
  obtain rfl : mapping = found := by
    refine haccepted.unique hmem hfound ?_
    exact hbegins.unique (begins_of_suffixOf hsuffix) (haccepted.isPlaceholder _ hmem)
      (haccepted.isPlaceholder _ hfound)
  exact ⟨suffix, hsuffix, habsolute, rfl⟩

private theorem foldl_unix_push {names : List String} :
    names.foldl unix.push path = path ++ names.map .down := by
  induction names generalizing path with
  | nil => simp
  | cons name names ih => rw [List.foldl_cons, ih]; simp [unix]

private theorem denormalizePath_startsWith {mappings : List PathMapping} {mapping : PathMapping}
    (haccepted : Accepted mappings) (hmem : mapping ∈ mappings)
    (hbegins : Begins value mapping.placeholder)
    (hresult : denormalizePath value mappings = .ok path) :
    Paths.startsWith path (normalizeComponents mapping.root) = true := by
  obtain ⟨suffix, -, -, rfl⟩ := haccepted.denormalized hmem hbegins hresult
  rw [foldl_unix_push]
  exact List.isPrefixOf_iff_prefix.mpr (List.prefix_append _ _)

/-- No part of a text between slashes names a drive. -/
def NamesNoDrive (value : String) : Prop :=
  ∀ component ∈ split value '/', VolumePath.drive component = none

private theorem drive_placeholderText (placeholder : String) :
    VolumePath.drive (placeholderText placeholder) = none := by
  have hchars : (placeholderText placeholder).toList =
      '$' :: '\x7b' :: (placeholder ++ "\x7d").toList := by
    rw [placeholderText, String.append_assoc, String.toList_append]
    rfl
  rw [VolumePath.drive, hchars]
  rfl

private theorem slash_not_mem_placeholderText {placeholder : String}
    (hplaceholder : isPlaceholder placeholder = true) :
    '/' ∉ (placeholderText placeholder).toList := by
  simp only [isPlaceholder, decide_eq_true_eq] at hplaceholder
  intro hmem
  rw [placeholderText, String.toList_append, String.toList_append, List.mem_append,
    List.mem_append] at hmem
  rcases hmem with (hmem | hmem) | hmem
  · exact absurd hmem (by decide)
  · exact absurd (List.all_eq_true.mp hplaceholder.2 _ hmem) (by decide)
  · exact absurd hmem (by decide)

private theorem namesNoDrive_iff {placeholder suffix : String}
    (hplaceholder : isPlaceholder placeholder = true)
    (hsuffix : suffixOf value placeholder = some suffix) :
    NamesNoDrive value ↔ ∀ component ∈ (split suffix '/').filter (· ≠ ""),
      VolumePath.drive component = none := by
  have hslash := slash_not_mem_placeholderText hplaceholder
  have hdrive := drive_placeholderText placeholder
  unfold suffixOf at hsuffix
  split at hsuffix
  · rename_i heq
    cases hsuffix
    refine iff_of_true ?_ (by decide)
    intro component hcomponent
    rw [heq, Strings.split_eq_singleton hslash, List.mem_singleton] at hcomponent
    rw [hcomponent, hdrive]
  · rw [Strings.stripPrefix_eq_some] at hsuffix
    rw [NamesNoDrive, hsuffix, Strings.split_append hslash rfl,
      List.forall_mem_cons]
    simp only [hdrive, true_and, List.mem_filter, decide_eq_true_eq, and_imp]
    refine forall₂_congr fun component _ => ⟨fun hnone _ => hnone, fun hnone => ?_⟩
    by_cases hempty : component = ""
    · rw [hempty]
      rfl
    · exact hnone hempty

/-- With drives, what is read back lies below the root of its mapping unless a part of it names a
drive. -/
theorem denormalizeWindows_startsWith_iff {mappings : List (MappedRoot VolumePath)}
    {mapping : MappedRoot VolumePath} {result : VolumePath} (haccepted : Accepted mappings)
    (hmem : mapping ∈ mappings) (hbegins : Begins value mapping.placeholder)
    (hresult : denormalizeWith windows value mappings = .ok result) :
    result.startsWith mapping.root.normalizeComponents = true ↔ NamesNoDrive value := by
  obtain ⟨suffix, hsuffix, habsolute, rfl⟩ := haccepted.denormalized hmem hbegins hresult
  have hroot : isAbsolute mapping.root.normalizeComponents.steps = true := by
    simp only [windows, VolumePath.isAbsolute, decide_eq_true_eq] at habsolute
    exact Paths.isAbsolute_normalized habsolute.2
  rw [namesNoDrive_iff (haccepted.isPlaceholder _ hmem) hsuffix]
  exact VolumePath.startsWith_foldl_push_iff hroot

end Below

/-! ## The same file -/

private theorem mem_lexical {steps : Path} {name : String}
    (hmem : name ∈ PosixTree.lexical names steps) :
    name ∈ names ∨ .down name ∈ steps := by
  induction steps generalizing names with
  | nil => exact .inl hmem
  | cons step steps ih =>
    rcases ih hmem with hadvanced | hstep
    · cases step with
      | down other =>
        rcases List.mem_append.mp hadvanced with hnames | hother
        · exact .inl hnames
        · rw [List.mem_singleton.mp hother]
          exact .inr List.mem_cons_self
      | stay => exact .inl hadvanced
      | up => exact .inl (List.mem_of_mem_dropLast hadvanced)
      | top => cases hadvanced
    · exact .inr (List.mem_cons_of_mem _ hstep)

private theorem isName_of_mem_components {text name : String}
    (hmem : .down name ∈ components text) :
    IsName name := by
  unfold components at hmem
  have hpieces : .down name ∈ ((BuildScript.pieces text).filter fun piece =>
      piece ≠ [] ∧ piece ≠ ['.']).map fun piece =>
        if piece = ['.', '.'] then PosixTree.Step.up else .down (String.ofList piece) := by
    rcases List.mem_append.mp hmem with hfirst | hpieces
    · split_ifs at hfirst <;> simp at hfirst
    · exact hpieces
  obtain ⟨piece, hpiece, heq⟩ := List.mem_map.mp hpieces
  split at heq
  · cases heq
  · rename_i hdots
    cases heq
    simp only [List.mem_filter, decide_eq_true_eq] at hpiece
    have hchars {text : List Char} (hne : piece ≠ text) :
        String.ofList piece ≠ String.ofList text :=
      fun heq => hne (by simpa using congrArg String.toList heq)
    refine ⟨hchars hpiece.2.1, hchars hpiece.2.2, hchars hdots, ?_⟩
    rw [String.toList_ofList]
    exact Strings.not_mem_of_mem_splitOn hpiece.1

private theorem normalizeComponents_eq_locationPath (habsolute : isAbsolute path = true) :
    ∃ names, normalizeComponents path = locationPath names ∧ ∀ name ∈ names, .down name ∈ path := by
  obtain ⟨steps, rfl⟩ := Paths.isAbsolute_iff.mp habsolute
  refine ⟨PosixTree.lexical [] steps, Paths.normalizeComponents_top, fun name hname => ?_⟩
  exact List.mem_cons_of_mem _ ((mem_lexical hname).resolve_left List.not_mem_nil)

private theorem Disk.resolvePathAliases_eq (hnames : ∀ name ∈ names, IsName name) :
    ∃ resolved, disk.resolvePathAliases (locationPath names) = locationPath resolved ∧
      ∀ name ∈ resolved, IsName name := by
  obtain ⟨kept, last, found, rfl, hkept, heq⟩ :=
    @Disk.resolveFrom_eq disk (locationPath names) names []
  rw [List.append_nil] at heq
  refine ⟨found ++ last, heq, fun name hname => ?_⟩
  rcases List.mem_append.mp hname with hname | hname
  · obtain ⟨node, hnode, -⟩ := (disk.real_of_canonicalize hkept).here
    exact disk.isName found (by rw [hnode]; exact Option.some_ne_none _) name hname
  · exact hnames name (List.mem_append_right _ hname)

private theorem slashPath_map_down : slashPath (names.map .down) = Strings.join names '/' := by
  rw [slashPath, List.filterMap_map]
  simp

private theorem suffixOf_mappedText {placeholder suffix : String} :
    suffixOf (mappedText placeholder suffix) placeholder = some suffix := by
  unfold suffixOf mappedText
  by_cases hempty : suffix = ""
  · rw [if_pos hempty, if_pos rfl, hempty]
  · have hlonger : placeholderText placeholder ++ "/" ++ suffix ≠ placeholderText placeholder := by
      intro heq
      have hlength := congrArg (fun text : String => text.toList.length) heq
      simp only [String.toList_append, List.length_append] at hlength
      have hslash : "/".toList.length = 1 := rfl
      omega
    rw [if_neg hempty, if_neg hlonger, Strings.stripPrefix_append]

private theorem split_slashPath (hnames : ∀ name ∈ names, IsName name) :
    (split (slashPath (names.map .down)) '/').filter (· ≠ "") = names := by
  rw [slashPath_map_down]
  cases names with
  | nil => decide
  | cons first others =>
    rw [Strings.split_join (List.cons_ne_nil _ _) fun name hname => (hnames name hname).2.2.2]
    exact List.filter_eq_self.mpr fun name hname => decide_eq_true (hnames name hname).1

private theorem normalizePath_ok {mappings : List PathMapping} {text : String}
    (habsolute : isAbsolute (normalizeComponents (join workingDir path)) = true)
    (hnormal : normalizePath disk workingDir mappings path = .ok text) :
    ∃ mapping ∈ mappings, ∃ relative,
      disk.resolvePathAliases (normalizeComponents (join workingDir path)) =
        disk.resolveMappingRoot mapping.root ++ relative ∧
      text = mappedText mapping.placeholder (slashPath relative) := by
  unfold normalizePath normalizeResolvedMappedPath at hnormal
  simp only [if_pos habsolute] at hnormal
  split at hnormal
  · rename_i placeholder relative hfound
    obtain ⟨mapping, hmapping, htext⟩ := List.exists_of_findSome?_eq_some hfound
    obtain ⟨below, hrelative, hpair⟩ := Option.map_eq_some_iff.mp htext
    obtain ⟨rfl, rfl⟩ := Prod.mk.inj hpair
    obtain ⟨given, hgiven, rfl⟩ := List.mem_map.mp hmapping
    unfold Disk.slashPath at hnormal
    split at hnormal <;> cases hnormal
    have hperm : (ordered unix mappings).Perm mappings := List.perm_insertionSort _ _
    exact ⟨given, hperm.mem_iff.mp hgiven, below, Paths.stripPrefix_eq_some.mp hrelative, rfl⟩
  · cases hnormal

private theorem locationPath_eq_append {resolved root : Location} {relative : Path}
    (heq : locationPath resolved = locationPath root ++ relative) :
    ∃ names : List String, relative = names.map .down ∧ resolved = root ++ names := by
  obtain ⟨front, back, rfl, hfront, rfl⟩ := List.map_eq_append_iff.mp (List.cons.inj heq).2
  refine ⟨back, rfl, ?_⟩
  rw [locationPath_injective (congrArg (PosixTree.Step.top :: ·) hfront : locationPath front = _)]

/-- Of an absolute root the normalised path is resolved. -/
theorem Disk.resolveMappingRoot_eq {root : Path} (habsolute : isAbsolute root = true) :
    disk.resolveMappingRoot root = disk.resolvePathAliases (normalizeComponents root) :=
  if_pos (Paths.isAbsolute_normalized habsolute)

private theorem isName_of_mem_join {workingDir file name : String}
    (hmem : .down name ∈ join (components workingDir) (components file)) : IsName name := by
  unfold join at hmem
  split at hmem
  · exact isName_of_mem_components hmem
  · rcases List.mem_append.mp hmem with hmem | hmem
    · exact isName_of_mem_components hmem
    · exact isName_of_mem_components (List.mem_filter.mp hmem).1

private theorem canonicalize_denormalized {workingDir file text : String}
    {mappings : List PathMapping}
    (habsolute : isAbsolute (components workingDir) = true) (haccepted : Accepted mappings)
    (hnormal : normalizePath disk (components workingDir) mappings (components file) = .ok text)
    (hresult : denormalizePath text mappings = .ok path) :
    disk.canonicalize path =
      disk.canonicalize (normalizeComponents (join (components workingDir) (components file))) := by
  obtain ⟨steps, hsteps, -⟩ := @rooted_join _ file (rooted_components habsolute)
  have hjoin : isAbsolute (join (components workingDir) (components file)) = true :=
    Paths.isAbsolute_iff.mpr ⟨steps, hsteps⟩
  obtain ⟨mapping, hmapping, relative, hrelative, rfl⟩ :=
    normalizePath_ok (Paths.isAbsolute_normalized hjoin) hnormal
  have hbegins : Begins (mappedText mapping.placeholder (slashPath relative))
      mapping.placeholder := begins_of_suffixOf suffixOf_mappedText
  obtain ⟨suffix, hsuffix, hroot, rfl⟩ := haccepted.denormalized hmapping hbegins hresult
  obtain rfl : slashPath relative = suffix :=
    Option.some.inj (suffixOf_mappedText.symm.trans hsuffix)
  obtain ⟨names, hnormalized, hdown⟩ := normalizeComponents_eq_locationPath hjoin
  obtain ⟨rootNames, hrootNames, -⟩ := normalizeComponents_eq_locationPath hroot
  rw [disk.resolveMappingRoot_eq hroot, hnormalized, hrootNames] at hrelative
  -- What follows the root is made of names, since both paths are resolved to locations.
  obtain ⟨resolved, hresolved, hisName⟩ :=
    @Disk.resolvePathAliases_eq disk names fun name hname => isName_of_mem_join (hdown name hname)
  obtain ⟨kept, last, found, -, -, hlocation⟩ :=
    @Disk.resolveFrom_eq disk (locationPath rootNames) rootNames []
  obtain ⟨rest, rfl, rfl⟩ := locationPath_eq_append
    (hresolved.symm.trans (hrelative.trans (congrArg (· ++ relative) hlocation)))
  rw [split_slashPath fun name hname => hisName name (List.mem_append_right _ hname),
    foldl_unix_push, hnormalized]
  change disk.canonicalize (normalizeComponents mapping.root ++ _) = _
  rw [hrootNames]
  exact disk.canonicalize_of_resolved hrelative

/-- A path of a key that is read back leads to the file that it was written for if no step up in
it takes a link away, and else exactly if the steps up make no difference. It lies below the root
of its placeholder unless it is read on a system with drives and names one. -/
theorem mapped_paths_iff {workingDir : String} {mappings : List PathMapping}
    (hvalid : validateMappings unix disk.resolveMappingRoot (components workingDir) mappings =
      .ok ()) {resolveMappingRoot : VolumePath → VolumePath} {volumeDir : VolumePath}
    {drives : List (MappedRoot VolumePath)}
    (hdrives : validateMappings windows resolveMappingRoot volumeDir drives = .ok ()) :
    (∀ file text path,
      normalizePath disk (components workingDir) mappings (components file) = .ok text →
      denormalizePath text mappings = .ok path →
      (TakesDirectories disk (join (components workingDir) (components file)) →
        disk.canonicalize path =
          disk.canonicalize (join (components workingDir) (components file))) ∧
      (disk.canonicalize path = disk.canonicalize (join (components workingDir) (components file)) ↔
        AgreesAfterUp disk (join (components workingDir) (components file)))) ∧
    (∀ value path, denormalizePath value mappings = .ok path →
      ∀ mapping ∈ mappings, Begins value mapping.placeholder →
        Paths.startsWith path (normalizeComponents mapping.root) = true) ∧
    ∀ value path, denormalizeWith windows value drives = .ok path →
      ∀ mapping ∈ drives, Begins value mapping.placeholder →
        (path.startsWith mapping.root.normalizeComponents = true ↔ NamesNoDrive value) := by
  obtain ⟨habsolute, haccepted⟩ := accepted_of_validate hvalid
  obtain ⟨-, hdrivesAccepted⟩ := accepted_of_validate hdrives
  refine ⟨fun file text path hnormal hresult => ?_,
    fun value path hresult mapping hmem hbegins => ?_,
    fun value path hresult mapping hmem hbegins => ?_⟩
  · have hrooted := @rooted_join _ file (rooted_components habsolute)
    rw [canonicalize_denormalized habsolute haccepted hnormal hresult,
      canonicalize_normalized_iff hrooted]
    exact ⟨agreesAfterUp_of_takesDirectories hrooted, Iff.rfl⟩
  · exact denormalizePath_startsWith haccepted hmem hbegins hresult
  · exact denormalizeWindows_startsWith_iff hdrivesAccepted hmem hbegins hresult

/-! ## A working directory and a drive -/

/-- The working directory of `linkedDisk` as a root. -/
def workspaceMappings : List PathMapping := [⟨components "/w", "workspace"⟩]

/-- A directory on a drive as a root. -/
def driveMappings : List (MappedRoot VolumePath) := [⟨⟨some "C:", components "/work"⟩, "workspace"⟩]

private theorem linkedDisk_mappings :
    builderMappings unix linkedDisk.resolveMappingRoot workspaceMappings =
      [⟨locationPath ["w"], "workspace"⟩] := by
  have hfound : linkedDisk.canonicalize (locationPath ["w"]) = some ["w"] :=
    (Reaches.top rfl (.intoDir rfl rfl .done)).realpath
  have hroot : linkedDisk.resolveMappingRoot (components "/w") = locationPath ["w"] := by
    rw [Disk.resolveMappingRoot_eq rfl]
    exact Disk.resolvePathAliases_of_some hfound
  rw [← hroot]
  rfl

private theorem linkedDisk_valid {workingDir : String}
    (habsolute : isAbsolute (components workingDir) = true) :
    validateMappings unix linkedDisk.resolveMappingRoot (components workingDir) workspaceMappings =
      .ok () := by
  have hunix : unix.isAbsolute (components workingDir) = true := habsolute
  rw [validateMappings, if_pos hunix, linkedDisk_mappings]
  rfl

private theorem linkedDisk_normalized {workingDir file : String}
    (hfile : normalizeComponents (join (components workingDir) (components file)) =
      locationPath ["w", "x.rs"]) :
    normalizePath linkedDisk (components workingDir) workspaceMappings (components file) =
      .ok "$\x7bworkspace\x7d/x.rs" := by
  have hresolved : linkedDisk.resolvePathAliases (locationPath ["w", "x.rs"]) =
      locationPath ["w", "x.rs"] := Disk.resolvePathAliases_of_some reaches_module.realpath
  unfold normalizePath normalizeResolvedMappedPath
  rw [hfile, linkedDisk_mappings]
  simp only [hresolved, ite_self]
  rfl

theorem mapped_paths_iff_module :
    normalizePath linkedDisk (components "/w") workspaceMappings (components "x.rs") =
        .ok "$\x7bworkspace\x7d/x.rs" ∧
      denormalizePath "$\x7bworkspace\x7d/x.rs" workspaceMappings = .ok (components "/w/x.rs") ∧
      linkedDisk.canonicalize (components "/w/x.rs") =
        linkedDisk.canonicalize (join (components "/w") (components "x.rs")) ∧
      denormalizeWith windows "$\x7bworkspace\x7d/x.rs" driveMappings =
        .ok ⟨some "C:", components "/work/x.rs"⟩ ∧
      VolumePath.startsWith ⟨some "C:", components "/work/x.rs"⟩ ⟨some "C:", components "/work"⟩ =
        true := by
  have hnormal := @linkedDisk_normalized "/w" "x.rs" rfl
  have hresult : denormalizePath "$\x7bworkspace\x7d/x.rs" workspaceMappings =
      .ok (components "/w/x.rs") := rfl
  have hdrive : denormalizeWith windows "$\x7bworkspace\x7d/x.rs" driveMappings =
      .ok ⟨some "C:", components "/work/x.rs"⟩ := rfl
  obtain ⟨hsame, -, hbelow⟩ := mapped_paths_iff (@linkedDisk_valid "/w" rfl)
    (show validateMappings windows id ⟨some "C:", components "/work"⟩ driveMappings = .ok () from
      rfl)
  refine ⟨hnormal, hresult, (hsame _ _ _ hnormal hresult).2.mpr ?_, hdrive,
    (hbelow _ _ hdrive _ List.mem_cons_self ⟨"/x.rs", rfl⟩).mpr (by unfold NamesNoDrive; decide)⟩
  intro front back heq
  have hup : .up ∈ join (components "/w") (components "x.rs") := by
    rw [heq]
    simp
  exact absurd hup (by decide)

/-- From a working directory with a step up after a link, a file is written and read back as
another one. A text that names a drive is read as a path on that drive. -/
theorem drive_leaves_root :
    normalizePath linkedDisk (components "/w/link/..") workspaceMappings (components "x.rs") =
        .ok "$\x7bworkspace\x7d/x.rs" ∧
      denormalizePath "$\x7bworkspace\x7d/x.rs" workspaceMappings = .ok (components "/w/x.rs") ∧
      linkedDisk.canonicalize (join (components "/w/link/..") (components "x.rs")) =
        some ["other", "x.rs"] ∧
      linkedDisk.canonicalize (components "/w/x.rs") = some ["w", "x.rs"] ∧
      validateMappings windows id ⟨some "C:", components "/work"⟩ driveMappings = .ok () ∧
      denormalizeWith windows "$\x7bworkspace\x7d/D:evil" driveMappings =
        .ok ⟨some "D:", [.down "evil"]⟩ ∧
      VolumePath.startsWith ⟨some "D:", [.down "evil"]⟩ ⟨some "C:", components "/work"⟩ =
        false := by
  exact ⟨linkedDisk_normalized rfl, rfl, reaches_other.realpath, reaches_module.realpath, rfl, rfl,
    rfl⟩

end MrBoxington.Rustc
